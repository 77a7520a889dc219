import IronInstance.GpuEvidence
import IronInstance.Service
import IronInstance.Library.Expansion

/-!
# The TDX quote over configfs-tsm

`tdx_quote` is not one call: it takes a number from a counter of the process, makes
a report entry of that name, writes the report data, reads the quote and removes the
entry. Entries are stateful and shared by every request of the process, so here the
service runs with each quote expanded to these calls, and any call of any other
request may fall between two of them.

`TsmStep` is what the requests do to the entries, seen without the rest of the
service: every host run is a run of it, and the ownership of entries is proved there.
-/

namespace IronInstance
open Programs Runs
set_option autoImplicit false

def tsmReportRoot : String := "/sys/kernel/config/tsm/report"

/-- `PathBuf::from(TSM_REPORT_ROOT).join(format!("iron-{}-{}", …))`. -/
def entryDir (pid : UInt32) (seq : UInt64) : String :=
  tsmReportRoot ++ "/iron-" ++ toString pid.toNat ++ "-" ++ toString seq.toNat

inductive HostOp where
  | op (o : Op)
  | fetchAdd
  | createDir (dir : String)
  | writeInblob (dir : String) (reportData : List UInt8)
  | readOutblob (dir : String)
  | removeDir (dir : String)

@[reducible] def HostAns : HostOp → Type
  | .op o => Ans o
  | .fetchAdd => UInt64
  | .createDir _ => Bool
  | .writeInblob _ _ => Bool
  | .readOutblob _ => Option (List UInt8)
  | .removeDir _ => Bool

abbrev HostProg (α : Type) := Prog HostOp HostAns α

/-! ## The function -/

/-- The closure: its result is kept while the entry is removed. -/
def readQuote (dir : String) (reportData : List UInt8) : HostProg (Option (List UInt8)) := do
  if !(← (.call (.writeInblob dir reportData) .pure : HostProg Bool)) then
    return none
  match ← (.call (.readOutblob dir) .pure : HostProg (Option (List UInt8))) with
  | none => return none
  | some quote => if quote.isEmpty then return none else return some quote

def tdxQuote (pid : UInt32) (reportData : List UInt8) : HostProg (Option (List UInt8)) := do
  let seq ← (.call .fetchAdd .pure : HostProg UInt64)
  let dir := entryDir pid seq
  if !(← (.call (.createDir dir) .pure : HostProg Bool)) then
    return none
  let result ← readQuote dir reportData
  let _ ← (.call (.removeDir dir) .pure : HostProg Bool)
  return result

def cleanUp (dir : String) (result : Option (List UInt8)) : HostProg (Option (List UInt8)) :=
  .call (.removeDir dir) fun _ => .pure result

def nonEmpty (quote : Option (List UInt8)) : Option (List UInt8) := quote.filter fun q => !q.isEmpty

def fillEntry (dir : String) (reportData : List UInt8) : HostProg (Option (List UInt8)) :=
  .call (.writeInblob dir reportData) fun
    | false => cleanUp dir none
    | true => .call (.readOutblob dir) fun quote => cleanUp dir (nonEmpty quote)

theorem readQuote_bind (dir : String) (reportData : List UInt8) :
    (readQuote dir reportData).bind (cleanUp dir) = fillEntry dir reportData := by
  unfold readQuote fillEntry
  simp only [Prog.call_bind, Prog.pure_bind, Prog.bind]
  congr 1
  funext ok
  cases ok with
  | false => rfl
  | true =>
    simp only [Bool.not_true, Bool.false_eq_true, if_false, Prog.bind]
    congr 1
    funext quote
    cases quote with
    | none => rfl
    | some q => cases q <;> rfl

theorem tdxQuote_eq (pid : UInt32) (reportData : List UInt8) :
    tdxQuote pid reportData = .call .fetchAdd fun seq => .call (.createDir (entryDir pid seq)) fun
      | false => .pure none
      | true => fillEntry (entryDir pid seq) reportData := by
  unfold tdxQuote
  simp only [Prog.call_bind, Prog.pure_bind]
  congr 1
  funext seq
  congr 1
  funext made
  cases made with
  | false => rfl
  | true => exact readQuote_bind (entryDir pid seq) reportData

def quoteCalls (dir : String) (seq : UInt64) (reportData quote : List UInt8) (removed : Bool) :
    List (Performed HostOp HostAns) :=
  [⟨.fetchAdd, seq⟩, ⟨.createDir dir, true⟩, ⟨.writeInblob dir reportData, true⟩, ⟨.readOutblob dir, some quote⟩,
    ⟨.removeDir dir, removed⟩]

theorem tdxQuote_path {pid : UInt32} {reportData quote : List UInt8} {ds : List (Performed HostOp HostAns)}
    (h : Follows (tdxQuote pid reportData) ds (.pure (some quote))) :
    quote ≠ [] ∧ ∃ seq removed, ds = quoteCalls (entryDir pid seq) seq reportData quote removed := by
  rw [tdxQuote_eq] at h
  obtain ⟨seq, ds₁, rfl, h₁⟩ := h.call_finished
  obtain ⟨made, ds₂, rfl, h₂⟩ := Follows.call_finished h₁
  cases made with
  | false => cases (Follows.pure_finished h₂).2
  | true =>
    obtain ⟨ok, ds₃, rfl, h₃⟩ := Follows.call_finished h₂
    cases ok with
    | false =>
      obtain ⟨removed, ds₄, rfl, h₄⟩ := Follows.call_finished h₃
      cases (Follows.pure_finished h₄).2
    | true =>
      obtain ⟨out, ds₄, rfl, h₄⟩ := Follows.call_finished h₃
      obtain ⟨removed, ds₅, rfl, h₅⟩ := Follows.call_finished h₄
      obtain ⟨rfl, hresult⟩ := Follows.pure_finished h₅
      obtain ⟨rfl, hne⟩ : out = some quote ∧ (!quote.isEmpty) = true := Option.filter_eq_some_iff.mp hresult.symm
      exact ⟨by simpa using hne, seq, removed, rfl⟩

/-- The calls behind an operation of a handler. -/
def implement (pid : UInt32) : (o : Op) → HostProg (Ans o)
  | .tdxQuote reportData => tdxQuote pid reportData
  | o => .call (.op o) .pure

theorem implement_cases (pid : UInt32) (o : Op) :
    (∃ reportData, o = .tdxQuote reportData) ∨ implement pid o = .call (.op o) .pure := by
  cases o with
  | tdxQuote reportData => exact .inl ⟨reportData, rfl⟩
  | _ => exact .inr rfl

/-! ## The host -/

abbrev Entries := String → Option (Option (List UInt8))

/-- `seq` is the static counter; an entry has its `inblob` once one was written. -/
structure Host where
  shared : Shared
  seq : UInt64
  entries : Entries

def Host.boot (entries : Entries) : Host := ⟨Shared.boot, 0, entries⟩

/-- Any of the four calls on an entry may fail. `quotes` is what the TDX module may
answer for some report data; a read answers for the `inblob` of the entry. -/
inductive HostExec (quotes : List UInt8 → List UInt8 → Prop) : Host → (o : HostOp) → HostAns o → Host → Prop where
  | op {s : Host} {o : Op} {a : Ans o} {t : Shared} (h : Exec s.shared o a t) :
      HostExec quotes s (.op o) a { s with shared := t }
  | fetchAdd (s : Host) : HostExec quotes s .fetchAdd s.seq { s with seq := s.seq + 1 }
  | created {s : Host} {dir : String} (h : s.entries dir = none) :
      HostExec quotes s (.createDir dir) true { s with entries := Function.update s.entries dir (some none) }
  | refused (s : Host) (dir : String) : HostExec quotes s (.createDir dir) false s
  | written {s : Host} {dir : String} (reportData : List UInt8) (h : (s.entries dir).isSome = true) :
      HostExec quotes s (.writeInblob dir reportData) true
        { s with entries := Function.update s.entries dir (some (some reportData)) }
  -- a failed write may leave anything in an entry that is there
  | spoiled {s : Host} {dir : String} (reportData : List UInt8) (content : Option (Option (List UInt8)))
      (h : content.isSome = (s.entries dir).isSome) :
      HostExec quotes s (.writeInblob dir reportData) false
        { s with entries := Function.update s.entries dir content }
  | read {s : Host} {dir : String} {reportData quote : List UInt8} (h : s.entries dir = some (some reportData))
      (hq : quotes reportData quote) : HostExec quotes s (.readOutblob dir) (some quote) s
  | unread (s : Host) (dir : String) : HostExec quotes s (.readOutblob dir) none s
  | removed (s : Host) (dir : String) :
      HostExec quotes s (.removeDir dir) true { s with entries := Function.update s.entries dir none }
  | stuck (s : Host) (dir : String) : HostExec quotes s (.removeDir dir) false s

inductive HostEnvEvent where
  | service (e : EnvEvent)
  | foreign (dir : String)

/-- The names of an entry tell the process: others leave the names of this one alone. -/
inductive HostEnvStep {P : Primitives} (C : Config P) (pid : UInt32) : Host → HostEnvEvent → Host → Prop where
  | service {s : Host} {e : EnvEvent} {t : Shared} (h : EnvStep C s.shared e t) :
      HostEnvStep C pid s (.service e) { s with shared := t }
  | foreign (s : Host) {dir : String} (content : Option (Option (List UInt8)))
      (h : ∀ seq, dir ≠ entryDir pid seq) :
      HostEnvStep C pid s (.foreign dir) { s with entries := Function.update s.entries dir content }

def hostMachine {P : Primitives} (C : Config P) (pid : UInt32) (quotes : List UInt8 → List UInt8 → Prop) :
    Machine Host Request HostOp HostAns Response HostEnvEvent where
  start r := (route C r).expand (implement pid)
  accepts s r := ∃ conn, s.shared.conns conn = some r.client
  exec := HostExec quotes
  env := HostEnvStep C pid

abbrev HostState := Pool Host Request HostOp HostAns Response

abbrev HostEvent := PoolEvent Request HostOp HostAns HostEnvEvent

abbrev HostStep {P : Primitives} (C : Config P) (pid : UInt32) (quotes : List UInt8 → List UInt8 → Prop) :
    HostState → HostEvent → HostState → Prop :=
  PoolStep (hostMachine C pid quotes)

def hostBoot (entries : Entries) : HostState := Pool.initial (Host.boot entries)

/-! ## The service above it -/

/-- What both levels show: everything but the quotes. -/
def serviceLabel : Performed Op Ans → Option (Performed Op Ans)
  | ⟨.tdxQuote _, _⟩ => none
  | c => some c

def hostLabel : Performed HostOp HostAns → Option (Performed Op Ans)
  | ⟨.op o, a⟩ => serviceLabel ⟨o, a⟩
  | _ => none

section Refinement
variable {P : Primitives} {C : Config P} {pid : UInt32} {quotes : List UInt8 → List UInt8 → Prop}

theorem HostExec.shared_eq {s t : Host} {o : HostOp} {a : HostAns o} (h : HostExec quotes s o a t)
    (ho : ∀ o', o ≠ .op o') : t.shared = s.shared := by
  cases h with
  | op _ => exact absurd rfl (ho _)
  | _ => rfl

theorem HostExec.ends_quote {s t : Host} {o : HostOp} {a : HostAns o} (h : HostExec quotes s o a t)
    (ho : ∀ o', o ≠ .op o') (reportData : List UInt8) (quote : Option (List UInt8)) :
    Exec s.shared (.tdxQuote reportData) quote t.shared := by
  rw [h.shared_eq ho]
  exact Exec.outside (o := .tdxQuote reportData) s.shared quote rfl

abbrev CarriesOutOp (quotes : List UInt8 → List UInt8 → Prop) (o : Op) (p : HostProg (Ans o)) : Prop :=
  p.CarriesOut Host.shared Exec (HostExec quotes) serviceLabel hostLabel o

theorem carriesOut_cleanUp (reportData : List UInt8) (dir : String) (result : Option (List UInt8)) :
    CarriesOutOp quotes (.tdxQuote reportData) (cleanUp dir result) :=
  fun _ => .inl ⟨result, rfl, rfl, fun _ _ h => h.ends_quote (by simp) reportData result⟩

theorem carriesOut_fillEntry (reportData : List UInt8) (dir : String) :
    CarriesOutOp quotes (.tdxQuote reportData) (fillEntry dir reportData) := by
  intro ok
  refine .inr ⟨rfl, fun s t h => h.shared_eq (by simp), ?_⟩
  cases ok with
  | false => exact carriesOut_cleanUp reportData dir none
  | true =>
    intro quote
    exact .inr ⟨rfl, fun s t h => h.shared_eq (by simp), carriesOut_cleanUp reportData dir (nonEmpty quote)⟩

theorem carriesOut_tdxQuote (pid : UInt32) (reportData : List UInt8) :
    CarriesOutOp quotes (.tdxQuote reportData) (tdxQuote pid reportData) := by
  rw [tdxQuote_eq]
  intro seq
  refine .inr ⟨rfl, fun s t h => h.shared_eq (by simp), ?_⟩
  intro made
  cases made with
  | false => exact .inl ⟨none, rfl, rfl, fun _ _ h => h.ends_quote (by simp) reportData none⟩
  | true => exact .inr ⟨rfl, fun s t h => h.shared_eq (by simp), carriesOut_fillEntry reportData _⟩

theorem refines_service :
    Refines (hostMachine C pid quotes) (machine C) (implement pid) Host.shared serviceLabel hostLabel where
  start _ := rfl
  accepts _ _ h := h
  ops o := by
    rcases implement_cases pid o with ⟨reportData, rfl⟩ | himpl
    · exact carriesOut_tdxQuote pid reportData
    · rw [himpl]
      intro a
      refine .inl ⟨a, rfl, rfl, fun s t h => ?_⟩
      cases h with
      | op hexec => exact hexec
  env s e t h := by
    cases h with
    | service henv => exact .inr ⟨_, henv⟩
    | foreign _ _ => exact .inl rfl

/-- With the quotes expanded the service does nothing new: its store, its answers and
every operation but the quotes are those of a run in which a quote is one call. -/
theorem host_run_is_service_run {entries : Entries} {es : List HostEvent} {p : HostState}
    (h : Run (HostStep C pid quotes) (hostBoot entries) es p) :
    ∃ es' p', Run (ServiceStep C) bootState es' p' ∧ p'.shared = p.shared.shared ∧
      labels serviceLabel es' = labels hostLabel es ∧
      (∀ id, p.task id = none → p'.task id = none) ∧
      (∀ id req done r, p.task id = some ⟨req, done, .pure r⟩ → ∃ done', p'.task id = some ⟨req, done', .pure r⟩) := by
  obtain ⟨es', p', hrun, habs, hlab⟩ := refines_service.run h
  exact ⟨es', p', hrun, habs.shared, hlab, fun id => habs.idle, fun id req done r => habs.answered⟩

end Refinement

/-! ## A quote in the synthetic deployment -/

namespace Synthetic

/-- A TDX module whose quotes end with the report data. -/
def tdxModule (reportData quote : List UInt8) : Prop := quote = 1 :: reportData

def reportData : List UInt8 := TwoGpus.nonce ++ config.spkiSha256.toList

def askQuote : Request := ⟨some pubkey, .attestation ⟨some TwoGpus.nonceHex⟩⟩

def helperOut : HelperRun := ⟨true, some (List.replicate 8 ⟨"QQ==", ["QQ=="]⟩)⟩

def quotedEnvelope : Envelope :=
  envelope (1 :: reportData) (pckChainFromQuote (1 :: reportData)) (List.replicate 8 ([0x41], [[0x41]]))

def attestArgs : List String := helperArgs (gpuNonces primitives 8 TwoGpus.nonce config.spkiSha256)

def hostCalls (pid : UInt32) : List (Performed HostOp HostAns) :=
  [⟨.op .instantNow, 0⟩] ++ ([⟨.op (.allowAttestation pubkey 0), true⟩] ++
    (quoteCalls (entryDir pid 0) 0 reportData (1 :: reportData) true ++
      ([⟨.op (.gpuHelper attestArgs), some helperOut⟩] ++ [])))

theorem follows_attest : Follows (route config askQuote)
    [⟨.instantNow, 0⟩, ⟨.allowAttestation pubkey 0, true⟩, ⟨.tdxQuote reportData, some (1 :: reportData)⟩,
      ⟨.gpuHelper attestArgs, some helperOut⟩] (.pure ⟨.ok, .envelope quotedEnvelope⟩) := by
  have hgpus : parseHelper 8 (some helperOut) = some (List.replicate 8 ([0x41], [[0x41]])) := by decide +kernel
  have hanswer : attestAnswer (1 :: reportData) (parseHelper 8 (some helperOut)) = ⟨.ok, .envelope quotedEnvelope⟩ := by
    rw [hgpus, attestAnswer, quotedEnvelope]
  have hquery : answerQuery primitives 8 config.spkiSha256 ⟨some TwoGpus.nonceHex⟩ =
      attest primitives 8 config.spkiSha256 TwoGpus.nonce := by
    have hlen : TwoGpus.nonce.length = 32 := rfl
    simp only [answerQuery, TwoGpus.decoded, if_pos hlen]
  have hrest : Follows (answerQuery primitives 8 config.spkiSha256 ⟨some TwoGpus.nonceHex⟩)
      [⟨.tdxQuote reportData, some (1 :: reportData)⟩, ⟨.gpuHelper attestArgs, some helperOut⟩]
      (.pure ⟨.ok, .envelope quotedEnvelope⟩) := by
    rw [hquery, attest_eq, ← hanswer]
    exact .cons (.cons (.nil _))
  exact .cons (.cons hrest)

def admitted : Shared := { connected.shared with store := (Inner.empty.allowAttestation pubkey 0).2 }

theorem exec_admitted : Exec connected.shared (.allowAttestation pubkey 0) true admitted := by
  have hyes : (Inner.empty.allowAttestation pubkey 0).1 = true := by decide +kernel
  exact hyes ▸ Exec.allowAttestation connected.shared pubkey 0

theorem exec_helper : Exec admitted (.gpuHelper attestArgs) (some helperOut) admitted :=
  Exec.outside (o := .gpuHelper attestArgs) admitted (some helperOut) rfl

theorem performs_attest : Performs connected.shared
    [⟨.instantNow, 0⟩, ⟨.allowAttestation pubkey 0, true⟩, ⟨.tdxQuote reportData, some (1 :: reportData)⟩,
      ⟨.gpuHelper attestArgs, some helperOut⟩] admitted :=
  .cons (.instantNow _) (.cons exec_admitted
    (.cons (Exec.outside (o := .tdxQuote reportData) admitted (some (1 :: reportData)) rfl) (.single exec_helper)))

theorem follows_tdxQuote (pid : UInt32) : Follows (tdxQuote pid reportData)
    (quoteCalls (entryDir pid 0) 0 reportData (1 :: reportData) true) (.pure (some (1 :: reportData))) := by
  rw [tdxQuote_eq]
  exact .cons (.cons (.cons (.cons (.cons (.nil _)))))

theorem follows_host (pid : UInt32) : Follows ((route config askQuote).expand (implement pid)) (hostCalls pid)
    (.pure ⟨.ok, .envelope quotedEnvelope⟩) := by
  have hcall : ∀ (o : Op) (a : Ans o),
      Follows (.call (.op o) .pure : HostProg (Ans o)) [⟨.op o, a⟩] (.pure a) := fun o a => .cons (.nil _)
  have hcarried : Carried (implement pid) [⟨.instantNow, 0⟩, ⟨.allowAttestation pubkey 0, true⟩,
      ⟨.tdxQuote reportData, some (1 :: reportData)⟩, ⟨.gpuHelper attestArgs, some helperOut⟩] (hostCalls pid) :=
    .cons (hcall .instantNow 0) (.cons (hcall (.allowAttestation pubkey 0) true)
      (.cons (follows_tdxQuote pid) (.cons (hcall (.gpuHelper attestArgs) (some helperOut)) .nil)))
  exact hcarried.follows follows_attest

theorem performs_host (pid : UInt32) : ∃ s, Run (fun s c s' => HostExec tdxModule s c.1 c.2 s')
    ⟨connected.shared, 0, fun _ => none⟩ (hostCalls pid) s := by
  refine ⟨_, .cons (.op (.instantNow _)) (.cons (.op exec_admitted) (.cons (.fetchAdd _) (.cons (.created rfl)
    (.cons (.written reportData ?_) (.cons (.read ?_ rfl) (.cons (.removed _ _) (.single (.op exec_helper))))))))⟩
  · simp
  · simp

def quoteEvents (pid : UInt32) : List HostEvent :=
  .env (.service (.handshake 0 [leaf])) :: .spawn 0 askQuote :: (hostCalls pid).map fun c => .perform 0 c.1 c.2

/-- One attested request, from the handshake to its envelope. -/
theorem quote_run (pid : UInt32) : ∃ p,
    Run (HostStep config pid tdxModule) (hostBoot fun _ => none) (quoteEvents pid) p ∧
    p.task = Function.update (fun _ => none) 0
      (some ⟨askQuote, hostCalls pid, .pure ⟨.ok, .envelope quotedEnvelope⟩⟩) := by
  let start : HostState := ⟨⟨connected.shared, 0, fun _ => none⟩, fun _ => none⟩
  have hopen : HostStep config pid tdxModule (hostBoot fun _ => none) (.env (.service (.handshake 0 [leaf]))) start :=
    .env (.service (.handshake rfl verifyClientCert_eq))
  have hok : (hostMachine config pid tdxModule).accepts start.shared askQuote := ⟨0, connected_conns⟩
  obtain ⟨s, hperforms⟩ := performs_host pid
  obtain ⟨p, hrun, -, htask⟩ :=
    Pool.serve (M := hostMachine config pid tdxModule) (p := start) 0 rfl hok (follows_host pid) hperforms
  exact ⟨p, .cons hopen hrun, htask⟩

end Synthetic

theorem host_run_is_service_run_single : ∃ es p, ∃ p' : ServiceState,
    Run (HostStep Synthetic.config 7 Synthetic.tdxModule) (hostBoot fun _ => none) es p ∧
    p'.shared = p.shared.shared ∧
    ∃ done, p'.task 0 = some ⟨Synthetic.askQuote, done, .pure ⟨.ok, .envelope Synthetic.quotedEnvelope⟩⟩ := by
  obtain ⟨p, hrun, htask⟩ := Synthetic.quote_run 7
  have ht := congrFun htask 0
  rw [Function.update_self] at ht
  obtain ⟨es', p', -, hshared, -, -, hanswered⟩ := host_run_is_service_run hrun
  exact ⟨_, p, p', hrun, hshared, hanswered 0 _ _ _ ht⟩

end IronInstance
