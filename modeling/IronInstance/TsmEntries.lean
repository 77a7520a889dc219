import Mathlib
import IronInstance.TsmReport

/-!
# Report entries have one owner

What a request has done tells which entry it holds; `Hold.Permits` is the discipline
that the source keeps: an entry is filled, read and removed by the request that made
it. From it, in every interleaving: no two requests hold one entry, a quote answers
for the report data of the request that reads it, and what a request made it removes.
-/

namespace IronInstance
open Programs Runs
set_option autoImplicit false

/-- What a request holds: the name it took, or the entry it made and what it wrote. -/
inductive Hold where
  | idle
  | reserved (dir : String)
  | made (dir : String) (inblob : Option (List UInt8))

namespace Hold

def next (pid : UInt32) (h : Hold) : (o : HostOp) → HostAns o → Hold
  | .op _, _ => h
  | .fetchAdd, seq => .reserved (entryDir pid seq)
  | .createDir dir, true => .made dir none
  | .createDir _, false => .idle
  | .writeInblob dir reportData, true => .made dir (some reportData)
  | .writeInblob dir _, false => .made dir none
  | .readOutblob _, _ => h
  | .removeDir _, _ => .idle

inductive Permits : Hold → HostOp → Prop where
  | op (o : Op) : Permits .idle (.op o)
  | fetchAdd : Permits .idle .fetchAdd
  | createDir (dir : String) : Permits (.reserved dir) (.createDir dir)
  | writeInblob (dir : String) (reportData : List UInt8) : Permits (.made dir none) (.writeInblob dir reportData)
  | readOutblob (dir : String) (reportData : List UInt8) :
      Permits (.made dir (some reportData)) (.readOutblob dir)
  | removeDir (dir : String) (inblob : Option (List UInt8)) : Permits (.made dir inblob) (.removeDir dir)

end Hold

/-! ## Every handler keeps the discipline -/

section Discipline
variable {pid : UInt32}

abbrev KeepsEntries (pid : UInt32) {α : Type} (h : Hold) (p : HostProg α) : Prop :=
  p.Keeps (Hold.next pid) Hold.Permits (· = .idle) h

theorem keeps_cleanUp (dir : String) (inblob result : Option (List UInt8)) :
    KeepsEntries pid (.made dir inblob) (cleanUp dir result) :=
  ⟨.removeDir dir inblob, fun _ => rfl⟩

theorem keeps_fillEntry (dir : String) (reportData : List UInt8) :
    KeepsEntries pid (.made dir none) (fillEntry dir reportData) := by
  refine ⟨.writeInblob dir reportData, fun ok => ?_⟩
  cases ok with
  | false => exact keeps_cleanUp dir none none
  | true =>
    refine ⟨.readOutblob dir reportData, fun quote => ?_⟩
    exact keeps_cleanUp dir (some reportData) (nonEmpty quote)

theorem keeps_implement (o : Op) (h : Hold) (hidle : h = .idle) : KeepsEntries pid h (implement pid o) := by
  subst hidle
  rcases implement_cases pid o with ⟨reportData, rfl⟩ | himpl
  · have htdx : KeepsEntries pid .idle (tdxQuote pid reportData) := by
      rw [tdxQuote_eq]
      refine ⟨.fetchAdd, fun seq => ⟨.createDir _, fun made => ?_⟩⟩
      cases made with
      | false => exact rfl
      | true => exact keeps_fillEntry (entryDir pid seq) reportData
    exact htdx
  · rw [himpl]
    exact ⟨.op o, fun _ => rfl⟩

variable {P : Primitives} {C : Config P} {quotes : List UInt8 → List UInt8 → Prop}

def heldAfter (pid : UInt32) (done : List (Performed HostOp HostAns)) : Hold :=
  history (Hold.next pid) .idle done

theorem keeps_rest {p : HostState} (hf : Pool.Faithful (hostMachine C pid quotes) p) {id : Nat} {req : Request}
    {done : List (Performed HostOp HostAns)} {prog : HostProg Response} (ht : p.task id = some ⟨req, done, prog⟩) :
    KeepsEntries pid (heldAfter pid done) prog :=
  Prog.Keeps.of_follows (hf id _ ht) (Prog.Keeps.expand keeps_implement _ rfl)

end Discipline

/-! ## The entries alone -/

structure Tsm where
  seq : UInt64
  entries : Entries
  holds : Nat → Hold

inductive TsmEvent where
  | foreign (dir : String)
  | reserve (id : Nat)
  | make (id : Nat) (dir : String)
  | refuse (id : Nat) (dir : String)
  | fill (id : Nat) (dir : String)
  | spoil (id : Nat) (dir : String)
  | quote (id : Nat) (dir : String) (quote : List UInt8)
  | remove (id : Nat) (dir : String)
  | leak (id : Nat) (dir : String)

section System
variable (pid : UInt32) (quotes : List UInt8 → List UInt8 → Prop)

inductive TsmStep : Tsm → TsmEvent → Tsm → Prop where
  | foreign (s : Tsm) {dir : String} (content : Option (Option (List UInt8))) (h : ∀ seq, dir ≠ entryDir pid seq) :
      TsmStep s (.foreign dir) { s with entries := Function.update s.entries dir content }
  | reserve {s : Tsm} {id : Nat} (h : s.holds id = .idle) :
      TsmStep s (.reserve id)
        { s with seq := s.seq + 1, holds := Function.update s.holds id (.reserved (entryDir pid s.seq)) }
  | make {s : Tsm} {id : Nat} {dir : String} (h : s.holds id = .reserved dir) (hfree : s.entries dir = none) :
      TsmStep s (.make id dir)
        { s with entries := Function.update s.entries dir (some none),
                 holds := Function.update s.holds id (.made dir none) }
  | refuse {s : Tsm} {id : Nat} {dir : String} (h : s.holds id = .reserved dir) :
      TsmStep s (.refuse id dir) { s with holds := Function.update s.holds id .idle }
  | fill {s : Tsm} {id : Nat} {dir : String} (reportData : List UInt8) (h : s.holds id = .made dir none)
      (hthere : (s.entries dir).isSome = true) :
      TsmStep s (.fill id dir)
        { s with entries := Function.update s.entries dir (some (some reportData)),
                 holds := Function.update s.holds id (.made dir (some reportData)) }
  | spoil {s : Tsm} {id : Nat} {dir : String} (content : Option (Option (List UInt8)))
      (h : s.holds id = .made dir none) (hsame : content.isSome = (s.entries dir).isSome) :
      TsmStep s (.spoil id dir)
        { s with entries := Function.update s.entries dir content,
                 holds := Function.update s.holds id (.made dir none) }
  | quote {s : Tsm} {id : Nat} {dir : String} {reportData inblob quote : List UInt8}
      (h : s.holds id = .made dir (some reportData)) (hin : s.entries dir = some (some inblob))
      (hq : quotes inblob quote) : TsmStep s (.quote id dir quote) s
  | remove {s : Tsm} {id : Nat} {dir : String} {inblob : Option (List UInt8)} (h : s.holds id = .made dir inblob) :
      TsmStep s (.remove id dir)
        { s with entries := Function.update s.entries dir none, holds := Function.update s.holds id .idle }
  | leak {s : Tsm} {id : Nat} {dir : String} {inblob : Option (List UInt8)} (h : s.holds id = .made dir inblob) :
      TsmStep s (.leak id dir) { s with holds := Function.update s.holds id .idle }

def HostEvent.tsm : HostEvent → Option TsmEvent
  | .perform id .fetchAdd _ => some (.reserve id)
  | .perform id (.createDir dir) true => some (.make id dir)
  | .perform id (.createDir dir) false => some (.refuse id dir)
  | .perform id (.writeInblob dir _) true => some (.fill id dir)
  | .perform id (.writeInblob dir _) false => some (.spoil id dir)
  | .perform id (.readOutblob dir) (some quote) => some (.quote id dir quote)
  | .perform id (.removeDir dir) true => some (.remove id dir)
  | .perform id (.removeDir dir) false => some (.leak id dir)
  | .env (.foreign dir) => some (.foreign dir)
  | _ => none

def held (p : HostState) (id : Nat) : Hold :=
  match p.task id with
  | none => .idle
  | some t => heldAfter pid t.done

def tsmView (p : HostState) : Tsm := ⟨p.shared.seq, p.shared.entries, held pid p⟩

end System

section Simulation
variable {P : Primitives} {C : Config P} {pid : UInt32} {quotes : List UInt8 → List UInt8 → Prop} {p q : HostState}

theorem held_eq {id : Nat} {t : Task Request HostOp HostAns Response} (ht : p.task id = some t) :
    held pid p id = heldAfter pid t.done := by
  rw [held, ht]

theorem held_spawn {id : Nat} {req : Request} {prog : HostProg Response} (hfree : p.task id = none) :
    held pid { p with task := Function.update p.task id (some ⟨req, [], prog⟩) } = held pid p := by
  funext id'
  unfold held
  by_cases hid : id' = id
  · subst hid
    simp [hfree, heldAfter]
  · simp [hid]

theorem held_perform {id : Nat} {req : Request} {done : List (Performed HostOp HostAns)}
    {prog prog' : HostProg Response} {o : HostOp} {a : HostAns o} (ht : p.task id = some ⟨req, done, prog⟩)
    (htask : q.task = Function.update p.task id (some ⟨req, done ++ [⟨o, a⟩], prog'⟩)) :
    held pid q = Function.update (held pid p) id (Hold.next pid (held pid p id) o a) := by
  funext id'
  by_cases hid : id' = id
  · subst hid
    rw [Function.update_self, held_eq ht, held, htask]
    simp [heldAfter, history_snoc]
  · simp [held, htask, hid]

theorem tsmView_spawn {id : Nat} {req : Request} (hstep : HostStep C pid quotes p (.spawn id req) q) :
    tsmView pid q = tsmView pid p := by
  cases hstep with
  | spawn hfree _ => simp only [tsmView, held_spawn hfree]

/-- What one call of a request does to the entries. -/
theorem tsm_perform (hf : Pool.Faithful (hostMachine C pid quotes) p) {id : Nat} {o : HostOp} {a : HostAns o}
    (hstep : HostStep C pid quotes p (.perform id o a) q) :
    Run (TsmStep pid quotes) (tsmView pid p) (HostEvent.tsm (.perform id o a)).toList (tsmView pid q) := by
  obtain ⟨req, done, k, ht, hexec, htask⟩ := Pool.perform_inv hstep
  have hbefore : held pid p id = heldAfter pid done := held_eq ht
  have hperm : Hold.Permits (held pid p id) o := hbefore ▸ (keeps_rest hf ht).1
  have hheld : held pid q = Function.update (held pid p) id (Hold.next pid (held pid p id) o a) :=
    held_perform ht htask
  generalize hh : held pid p id = h at hperm hheld
  obtain ⟨s, task⟩ := q
  have hview : tsmView pid ⟨s, task⟩ =
      ⟨s.seq, s.entries, Function.update (held pid p) id (Hold.next pid h o a)⟩ := by
    rw [← hheld]
    rfl
  rw [hview]
  have hidle : ∀ {h' : Hold}, held pid p id = h' → Function.update (held pid p) id h' = held pid p := by
    rintro h' rfl
    exact Function.update_eq_self id _
  cases hexec with
  | op _ => exact Run.nil_iff.mpr (by rw [Hold.next, hidle hh]; rfl)
  | fetchAdd =>
    cases hperm
    exact .single (.reserve hh)
  | created hfree =>
    cases hperm
    exact .single (.make hh hfree)
  | refused dir =>
    cases hperm
    exact .single (.refuse hh)
  | written reportData hthere =>
    cases hperm
    exact .single (.fill reportData hh hthere)
  | spoiled reportData content hsame =>
    cases hperm
    exact .single (.spoil content hh hsame)
  | @read dir reportData quote hin hq =>
    rw [Hold.next, hidle hh]
    cases hperm
    exact .single (.quote hh hin hq)
  | unread dir => exact Run.nil_iff.mpr (by rw [Hold.next, hidle hh]; rfl)
  | removed dir =>
    cases hperm
    exact .single (.remove hh)
  | stuck dir =>
    cases hperm
    exact .single (.leak hh)

theorem tsm_step (hf : Pool.Faithful (hostMachine C pid quotes) p) {e : HostEvent}
    (hstep : HostStep C pid quotes p e q) :
    Run (TsmStep pid quotes) (tsmView pid p) (HostEvent.tsm e).toList (tsmView pid q) := by
  cases e with
  | spawn id req => exact Run.nil_iff.mpr (tsmView_spawn hstep).symm
  | perform id o a => exact tsm_perform hf hstep
  | env e =>
    cases hstep with
    | env henv =>
      cases henv with
      | service _ => exact .nil _
      | foreign content h => exact .single (.foreign _ content h)

def tsmEvents (es : List HostEvent) : List TsmEvent := es.filterMap HostEvent.tsm

theorem tsmEvents_snoc (es : List HostEvent) (e : HostEvent) :
    tsmEvents (es ++ [e]) = tsmEvents es ++ (HostEvent.tsm e).toList := by
  simp only [tsmEvents, List.filterMap_append, List.filterMap_cons, List.filterMap_nil]
  cases HostEvent.tsm e <;> rfl

def Tsm.boot (entries : Entries) : Tsm := ⟨0, entries, fun _ => .idle⟩

/-- Every host run is a run of the entries. -/
theorem tsm_run {entries : Entries} {es : List HostEvent} (h : Run (HostStep C pid quotes) (hostBoot entries) es p) :
    Run (TsmStep pid quotes) (Tsm.boot entries) (tsmEvents es) (tsmView pid p) := by
  refine h.reverseInduction (P := fun es p => Run (TsmStep pid quotes) (Tsm.boot entries) (tsmEvents es)
    (tsmView pid p)) (.nil _) ?_
  intro es p e q hpre hstep ih
  rw [tsmEvents_snoc]
  exact ih.append (tsm_step (fun _ _ => Pool.follows hpre) hstep)

end Simulation

/-! ## One owner -/

def Hold.dir : Hold → Option String
  | .idle => none
  | .reserved dir => some dir
  | .made dir _ => some dir

/-- The entry is there, with what its owner wrote. -/
def Fits (inblob : Option (List UInt8)) (entry : Option (Option (List UInt8))) : Prop :=
  ∃ content, entry = some content ∧ ∀ reportData, inblob = some reportData → content = some reportData

structure Owned (pid : UInt32) (s : Tsm) : Prop where
  named : ∀ id dir, (s.holds id).dir = some dir → ∃ seq, dir = entryDir pid seq
  fits : ∀ id dir inblob, s.holds id = .made dir inblob → Fits inblob (s.entries dir)
  unique : ∀ i j dir x y, s.holds i = .made dir x → s.holds j = .made dir y → i = j

section Ownership
variable {pid : UInt32} {quotes : List UInt8 → List UInt8 → Prop} {s t : Tsm}

theorem owned_boot (entries : Entries) : Owned pid (Tsm.boot entries) where
  named _ _ h := by cases h
  fits _ _ _ h := by cases h
  unique _ _ _ _ _ h := by cases h

/-- One request moves on; the entries held by others are as they were. -/
theorem Owned.update (h : Owned pid s) {id : Nat} {hold : Hold} {seq : UInt64} {entries : Entries}
    (hname : ∀ dir, hold.dir = some dir → ∃ seq, dir = entryDir pid seq)
    (hothers : ∀ j dir x, j ≠ id → s.holds j = .made dir x → entries dir = s.entries dir)
    (hmade : ∀ dir x, hold = .made dir x →
      Fits x (entries dir) ∧ ∀ j y, s.holds j = .made dir y → j = id) :
    Owned pid ⟨seq, entries, Function.update s.holds id hold⟩ where
  named j dir hdir := by
    by_cases hj : j = id
    · subst hj
      simp only [Function.update_self] at hdir
      exact hname dir hdir
    · simp only [Function.update_of_ne hj] at hdir
      exact h.named j dir hdir
  fits j dir x hhold := by
    by_cases hj : j = id
    · subst hj
      simp only [Function.update_self] at hhold
      exact (hmade dir x hhold).1
    · simp only [Function.update_of_ne hj] at hhold
      simp only [hothers j dir x hj hhold]
      exact h.fits j dir x hhold
  unique i j dir x y hi hj := by
    by_cases hid : i = id
    · subst hid
      simp only [Function.update_self] at hi
      by_cases hjd : j = i
      · exact hjd.symm
      · simp only [Function.update_of_ne hjd] at hj
        exact ((hmade dir x hi).2 j y hj).symm
    · simp only [Function.update_of_ne hid] at hi
      by_cases hjd : j = id
      · subst hjd
        simp only [Function.update_self] at hj
        exact (hmade dir y hj).2 i x hi
      · simp only [Function.update_of_ne hjd] at hj
        exact h.unique i j dir x y hi hj

theorem Owned.others (h : Owned pid s) {id : Nat} {dir : String} {inblob : Option (List UInt8)}
    (hhold : s.holds id = .made dir inblob) (content : Option (Option (List UInt8))) (j : Nat) (dir' : String)
    (x : Option (List UInt8)) (hj : j ≠ id) (hhold' : s.holds j = .made dir' x) :
    Function.update s.entries dir content dir' = s.entries dir' := by
  have hne : dir' ≠ dir := by
    rintro rfl
    exact hj (h.unique j id dir' x inblob hhold' hhold)
  exact Function.update_of_ne hne _ _

theorem Owned.name_made (h : Owned pid s) {id : Nat} {dir : String} {x y : Option (List UInt8)}
    (hhold : s.holds id = .made dir x) (dir' : String) (hdir : (Hold.made dir y).dir = some dir') :
    ∃ seq, dir' = entryDir pid seq := by
  cases hdir
  exact h.named id dir (by rw [hhold]; rfl)

theorem isSome_of_fits {x : Option (List UInt8)} {entry : Option (Option (List UInt8))} (h : Fits x entry) :
    entry.isSome = true := by
  obtain ⟨content, rfl, -⟩ := h
  rfl

theorem fits_none {entry : Option (Option (List UInt8))} (h : entry.isSome = true) : Fits none entry := by
  obtain ⟨content, rfl⟩ := Option.isSome_iff_exists.mp h
  exact ⟨content, rfl, by simp⟩

theorem owned_step {e : TsmEvent} (hstep : TsmStep pid quotes s e t) (h : Owned pid s) : Owned pid t := by
  cases hstep with
  | @foreign dir content hother =>
    refine ⟨h.named, ?_, h.unique⟩
    intro id dir' x hhold
    have hne : dir' ≠ dir := by
      rintro rfl
      obtain ⟨seq, hseq⟩ := h.named id dir' (by rw [hhold]; rfl)
      exact hother seq hseq
    simp only [Function.update_of_ne hne]
    exact h.fits id dir' x hhold
  | reserve _ =>
    refine h.update ?_ (fun _ _ _ _ _ => rfl) (by simp)
    intro dir hdir
    cases hdir
    exact ⟨_, rfl⟩
  | @make id dir hhold hfree =>
    have hnobody : ∀ j x, s.holds j ≠ .made dir x := by
      intro j x hj
      have hthere := isSome_of_fits (h.fits j dir x hj)
      rw [hfree] at hthere
      cases hthere
    refine h.update ?_ ?_ ?_
    · intro dir' hdir
      cases hdir
      exact h.named id dir (by rw [hhold]; rfl)
    · intro j dir' x _ hj
      refine Function.update_of_ne ?_ _ _
      rintro rfl
      exact hnobody j x hj
    · intro dir' x hmade
      cases hmade
      refine ⟨fits_none (by simp), ?_⟩
      intro j y hj
      exact absurd hj (hnobody j y)
  | refuse _ => exact h.update (by simp [Hold.dir]) (fun _ _ _ _ _ => rfl) (by simp)
  | @fill id dir reportData hhold _ =>
    refine h.update (h.name_made hhold) (h.others hhold _) ?_
    intro dir' x hmade
    cases hmade
    refine ⟨⟨some reportData, by simp, by simp⟩, ?_⟩
    intro j y hj
    exact h.unique j id dir y none hj hhold
  | @spoil id dir content hhold hsame =>
    refine h.update (h.name_made hhold) (h.others hhold _) ?_
    intro dir' x hmade
    cases hmade
    have hthere : content.isSome = true := hsame.trans (isSome_of_fits (h.fits id dir none hhold))
    refine ⟨fits_none (by simpa using hthere), ?_⟩
    intro j y hj
    exact h.unique j id dir y none hj hhold
  | quote _ _ _ => exact h
  | remove hhold => exact h.update (by simp [Hold.dir]) (h.others hhold _) (by simp)
  | leak _ => exact h.update (by simp [Hold.dir]) (fun _ _ _ _ _ => rfl) (by simp)

theorem owned_run {entries : Entries} {es : List TsmEvent} (h : Run (TsmStep pid quotes) (Tsm.boot entries) es s) :
    Owned pid s :=
  h.invariant owned_step (owned_boot entries)

/-- A quote is read from what the reader itself wrote. -/
theorem Owned.quote_binds (h : Owned pid s) {id : Nat} {dir : String} {quote reportData : List UInt8}
    (hstep : TsmStep pid quotes s (.quote id dir quote) t) (hhold : s.holds id = .made dir (some reportData)) :
    quotes reportData quote := by
  cases hstep with
  | quote _ hin hq =>
    obtain ⟨content, hcontent, hwrote⟩ := h.fits id dir (some reportData) hhold
    rw [hin] at hcontent
    cases hcontent
    cases hwrote reportData rfl
    exact hq

end Ownership

/-! ## What is left behind -/

/-- `dir` was changed by another process, or is as it was and nobody's, or is an entry of
this process: held, or left by a failed removal. -/
inductive Accounted (entries : Entries) (es : List TsmEvent) (s : Tsm) (dir : String) : Prop where
  | foreign (h : .foreign dir ∈ es)
  | untouched (h : s.entries dir = entries dir) (hfree : ∀ id x, s.holds id ≠ .made dir x)
  | held (h : entries dir = none) {id : Nat} {x : Option (List UInt8)} (hheld : s.holds id = .made dir x)
  | leaked (h : entries dir = none) {id : Nat} (hleak : .leak id dir ∈ es)

section Accounts
variable {pid : UInt32} {quotes : List UInt8 → List UInt8 → Prop} {s t : Tsm} {entries : Entries}
  {es : List TsmEvent} {e : TsmEvent} {dir : String}

theorem Accounted.same (h : Accounted entries es s dir) (hentry : t.entries dir = s.entries dir)
    (hholds : ∀ id x, t.holds id = .made dir x ↔ s.holds id = .made dir x) :
    Accounted entries (es ++ [e]) t dir := by
  cases h with
  | foreign h => exact .foreign (List.mem_append_left _ h)
  | untouched h hfree => exact .untouched (hentry.trans h) fun id x hx => hfree id x ((hholds id x).mp hx)
  | held h hheld => exact .held h ((hholds _ _).mpr hheld)
  | leaked h hleak => exact .leaked h (List.mem_append_left _ hleak)

/-- Whoever holds `dir` made it where nothing was. -/
theorem Accounted.absent (h : Accounted entries es s dir) {id : Nat} {x : Option (List UInt8)}
    (hhold : s.holds id = .made dir x) : .foreign dir ∈ es ∨ entries dir = none := by
  cases h with
  | foreign h => exact .inl h
  | untouched _ hfree => exact absurd hhold (hfree id x)
  | held h _ => exact .inr h
  | leaked h _ => exact .inr h

theorem made_update_iff {holds : Nat → Hold} {id : Nat} {hold : Hold} (hold_ne : ∀ x, hold ≠ .made dir x)
    (hwas : ∀ x, holds id ≠ .made dir x) (j : Nat) (x : Option (List UInt8)) :
    Function.update holds id hold j = .made dir x ↔ holds j = .made dir x := by
  by_cases hj : j = id
  · subst hj
    simp [hold_ne, hwas]
  · simp [hj]

theorem accounted_step (hs : Owned pid s) (hstep : TsmStep pid quotes s e t) (h : Accounted entries es s dir) :
    Accounted entries (es ++ [e]) t dir := by
  cases hstep with
  | @foreign dir' content _ =>
    by_cases hd : dir = dir'
    · subst hd
      exact .foreign (by simp)
    · exact h.same (Function.update_of_ne hd _ _) fun _ _ => Iff.rfl
  | reserve hhold => exact h.same rfl (made_update_iff (by simp) (by simp [hhold]))
  | @make id dir' hhold hfree =>
    by_cases hd : dir = dir'
    · subst hd
      cases h with
      | foreign h => exact .foreign (List.mem_append_left _ h)
      | untouched h _ => exact .held (h.symm.trans hfree) (Function.update_self id _ _)
      | held h _ => exact .held h (Function.update_self id _ _)
      | leaked h _ => exact .held h (Function.update_self id _ _)
    · exact h.same (Function.update_of_ne hd _ _) (made_update_iff (by simp [Ne.symm hd]) (by simp [hhold]))
  | refuse hhold => exact h.same rfl (made_update_iff (by simp) (by simp [hhold]))
  | @fill id dir' reportData hhold _ =>
    by_cases hd : dir = dir'
    · subst hd
      rcases h.absent hhold with hforeign | hnone
      · exact .foreign (List.mem_append_left _ hforeign)
      · exact .held hnone (Function.update_self id _ _)
    · exact h.same (Function.update_of_ne hd _ _)
        (made_update_iff (by simp [Ne.symm hd]) (by simp [hhold, Ne.symm hd]))
  | @spoil id dir' content hhold _ =>
    by_cases hd : dir = dir'
    · subst hd
      rcases h.absent hhold with hforeign | hnone
      · exact .foreign (List.mem_append_left _ hforeign)
      · exact .held hnone (Function.update_self id _ _)
    · exact h.same (Function.update_of_ne hd _ _)
        (made_update_iff (by simp [Ne.symm hd]) (by simp [hhold, Ne.symm hd]))
  | quote _ _ _ => exact h.same rfl fun _ _ => Iff.rfl
  | @remove id dir' x hhold =>
    by_cases hd : dir = dir'
    · subst hd
      rcases h.absent hhold with hforeign | hnone
      · exact .foreign (List.mem_append_left _ hforeign)
      · refine .untouched ((Function.update_self _ _ _).trans hnone.symm) ?_
        intro j y hj
        by_cases hid : j = id
        · subst hid
          simp at hj
        · simp only [Function.update_of_ne hid] at hj
          exact hid (hs.unique j id dir y x hj hhold)
    · exact h.same (Function.update_of_ne hd _ _) (made_update_iff (by simp) (by simp [hhold, Ne.symm hd]))
  | @leak id dir' x hhold =>
    by_cases hd : dir = dir'
    · subst hd
      rcases h.absent hhold with hforeign | hnone
      · exact .foreign (List.mem_append_left _ hforeign)
      · have hleak : .leak id dir ∈ es ++ [.leak id dir] := List.mem_append_right _ (List.mem_singleton_self _)
        exact .leaked hnone hleak
    · exact h.same rfl (made_update_iff (by simp) (by simp [hhold, Ne.symm hd]))

theorem accounted_run (h : Run (TsmStep pid quotes) (Tsm.boot entries) es s) (dir : String) :
    Accounted entries es s dir := by
  refine h.reverseInduction (P := fun es s => Accounted entries es s dir) ?_ ?_
  · exact .untouched rfl (by simp [Tsm.boot])
  · intro es s e t hrun hstep ih
    exact accounted_step (owned_run hrun) hstep ih

end Accounts

section Host
variable {P : Primitives} {C : Config P} {pid : UInt32} {quotes : List UInt8 → List UInt8 → Prop} {entries : Entries}
  {es : List HostEvent} {p : HostState}

theorem foreign_of_tsm {dir : String} (h : .foreign dir ∈ tsmEvents es) : .env (.foreign dir) ∈ es := by
  obtain ⟨e, he, heq⟩ := List.mem_filterMap.mp h
  unfold HostEvent.tsm at heq
  split at heq <;> cases heq
  exact he

theorem stuck_of_tsm {id : Nat} {dir : String} (h : .leak id dir ∈ tsmEvents es) :
    .perform id (.removeDir dir) false ∈ es := by
  obtain ⟨e, he, heq⟩ := List.mem_filterMap.mp h
  unfold HostEvent.tsm at heq
  split at heq <;> cases heq
  exact he

theorem held_idle_of_finished (h : Run (HostStep C pid quotes) (hostBoot entries) es p) {id : Nat}
    {req : Request} {done : List (Performed HostOp HostAns)} {r : Response}
    (ht : p.task id = some ⟨req, done, .pure r⟩) : held pid p id = .idle := by
  have hkeeps : KeepsEntries pid (heldAfter pid done) (.pure r) := keeps_rest (fun _ _ => Pool.follows h) ht
  rw [held_eq ht]
  exact hkeeps

/-- In every interleaving a report entry has at most one owner, an entry that was there
before is left alone, and once the requests are through, nothing of theirs is left unless
a removal failed. -/
theorem report_entries_cleaned_up (h : Run (HostStep C pid quotes) (hostBoot entries) es p) :
    (∀ i j dir x y, held pid p i = .made dir x → held pid p j = .made dir y → i = j) ∧
    (∀ dir, .env (.foreign dir) ∉ es → entries dir ≠ none → p.shared.entries dir = entries dir) ∧
    (∀ dir, .env (.foreign dir) ∉ es → (∀ id, .perform id (.removeDir dir) false ∉ es) →
      (∀ id t, p.task id = some t → ∃ r, t.prog = .pure r) → p.shared.entries dir = entries dir) := by
  have hrun := tsm_run h
  refine ⟨(owned_run hrun).unique, ?_, ?_⟩
  · intro dir hforeign hthere
    cases accounted_run hrun dir with
    | foreign hf => exact absurd (foreign_of_tsm hf) hforeign
    | untouched hsame _ => exact hsame
    | held hnone _ => exact absurd hnone hthere
    | leaked hnone _ => exact absurd hnone hthere
  · intro dir hforeign hremoved hdone
    cases accounted_run hrun dir with
    | foreign hf => exact absurd (foreign_of_tsm hf) hforeign
    | untouched hsame _ => exact hsame
    | @held _ id x hheld =>
      have hidle : held pid p id = .idle := by
        cases ht : p.task id with
        | none => rw [held, ht]
        | some t =>
          obtain ⟨req, done, prog⟩ := t
          obtain ⟨r, rfl⟩ := hdone id _ ht
          exact held_idle_of_finished h ht
      have hmade : held pid p id = .made dir x := hheld
      rw [hidle] at hmade
      cases hmade
    | leaked _ hleak => exact absurd (stuck_of_tsm hleak) (hremoved _)

end Host

theorem report_entries_cleaned_up_single : ∃ es p,
    Run (HostStep Synthetic.config 7 Synthetic.tdxModule) (hostBoot fun _ => none) es p ∧
    .perform 0 (.createDir (entryDir 7 0)) true ∈ es ∧ p.shared.entries (entryDir 7 0) = none := by
  obtain ⟨p, hrun, htask⟩ := Synthetic.quote_run 7
  refine ⟨_, p, hrun, by simp [Synthetic.quoteEvents, Synthetic.hostCalls, quoteCalls], ?_⟩
  refine (report_entries_cleaned_up hrun).2.2 (entryDir 7 0) ?_ ?_ ?_
  · simp [Synthetic.quoteEvents]
  · simp [Synthetic.quoteEvents, Synthetic.hostCalls, quoteCalls]
  · intro id t ht
    rw [htask] at ht
    rcases update_some_iff.mp ht with ⟨-, rfl⟩ | ⟨-, hnone⟩
    · exact ⟨_, rfl⟩
    · cases hnone

/-! ## Fresh names -/

theorem entryDir_injective {pid : UInt32} {m n : UInt64} (h : entryDir pid m = entryDir pid n) : m = n := by
  unfold entryDir at h
  exact UInt64.toNat_inj.mp (Nat.repr_injective (String.append_right_inj _ |>.mp h))

theorem ofNat_injOn {m n : Nat} (hm : m < 2 ^ 64) (hn : n < 2 ^ 64) (h : UInt64.ofNat m = UInt64.ofNat n) : m = n := by
  have heq := congrArg UInt64.toNat h
  rwa [UInt64.toNat_ofNat', UInt64.toNat_ofNat', Nat.mod_eq_of_lt hm, Nat.mod_eq_of_lt hn] at heq

/-- The names taken so far are those of the first `n` numbers. -/
structure Numbered (pid : UInt32) (n : Nat) (s : Tsm) : Prop where
  seq : s.seq = UInt64.ofNat n
  used : ∀ m, s.entries (entryDir pid m) ≠ none → ∃ k < n, m = UInt64.ofNat k
  reserved : ∀ id dir, s.holds id = .reserved dir →
    s.entries dir = none ∧ ∃ k < n, dir = entryDir pid (UInt64.ofNat k)
  distinct : ∀ i j dir, s.holds i = .reserved dir → s.holds j = .reserved dir → i = j

def TsmEvent.reserves : TsmEvent → Bool
  | .reserve _ => true
  | _ => false

section Numbers
variable {pid : UInt32} {quotes : List UInt8 → List UInt8 → Prop} {s t : Tsm} {n : Nat}

theorem numbered_boot {entries : Entries} (hclean : ∀ seq, entries (entryDir pid seq) = none) :
    Numbered pid 0 (Tsm.boot entries) where
  seq := rfl
  used m h := absurd (hclean m) h
  reserved _ _ h := by cases h
  distinct _ _ _ h := by cases h

/-- A request lets go of its name, or takes the next step with the entry it made. -/
theorem Numbered.settle (h : Numbered pid n s) {id : Nat} {hold : Hold} {entries : Entries}
    (hhold : ∀ dir, hold ≠ .reserved dir)
    (hused : ∀ m, entries (entryDir pid m) ≠ none → ∃ k < n, m = UInt64.ofNat k)
    (hfree : ∀ j dir, j ≠ id → s.holds j = .reserved dir → entries dir = none) :
    Numbered pid n ⟨s.seq, entries, Function.update s.holds id hold⟩ := by
  have hstill : ∀ {j dir}, Function.update s.holds id hold j = .reserved dir → j ≠ id ∧ s.holds j = .reserved dir := by
    intro j dir hj
    by_cases hid : j = id
    · subst hid
      rw [Function.update_self] at hj
      exact absurd hj (hhold dir)
    · rw [Function.update_of_ne hid] at hj
      exact ⟨hid, hj⟩
  refine ⟨h.seq, hused, ?_, ?_⟩
  · intro j dir hj
    obtain ⟨hid, hj⟩ := hstill hj
    exact ⟨hfree j dir hid hj, (h.reserved j dir hj).2⟩
  · intro i j dir hi hj
    exact h.distinct i j dir (hstill hi).2 (hstill hj).2

theorem Numbered.rewrite (h : Numbered pid n s) {id : Nat} {hold : Hold} {dir : String}
    {content : Option (Option (List UInt8))} (hhold : ∀ dir, hold ≠ .reserved dir)
    (hsame : content.isSome = (s.entries dir).isSome) :
    Numbered pid n ⟨s.seq, Function.update s.entries dir content, Function.update s.holds id hold⟩ := by
  have hnone : ∀ dir', Function.update s.entries dir content dir' = none ↔ s.entries dir' = none := by
    intro dir'
    by_cases hd : dir' = dir
    · subst hd
      rw [Function.update_self, ← Option.isNone_iff_eq_none, ← Option.isNone_iff_eq_none, ← Option.not_isSome,
        ← Option.not_isSome, hsame]
    · rw [Function.update_of_ne hd]
  refine h.settle hhold ?_ ?_
  · intro m hm
    exact h.used m fun hfree => hm ((hnone _).mpr hfree)
  · intro j dir' _ hj
    exact (hnone dir').mpr (h.reserved j dir' hj).1

theorem reserved_update {holds : Nat → Hold} {id j : Nat} {name dir : String}
    (h : Function.update holds id (.reserved name) j = .reserved dir) :
    (j = id ∧ dir = name) ∨ (j ≠ id ∧ holds j = .reserved dir) := by
  by_cases hid : j = id
  · subst hid
    rw [Function.update_self] at h
    cases h
    exact .inl ⟨rfl, rfl⟩
  · rw [Function.update_of_ne hid] at h
    exact .inr ⟨hid, h⟩

theorem Numbered.reserve (h : Numbered pid n s) (hn : n < 2 ^ 64) (id : Nat) :
    Numbered pid (n + 1)
      ⟨s.seq + 1, s.entries, Function.update s.holds id (.reserved (entryDir pid s.seq))⟩ := by
  have hnew : ∀ k < n, UInt64.ofNat k ≠ s.seq := by
    intro k hk heq
    rw [h.seq] at heq
    exact absurd (ofNat_injOn (hk.trans hn) hn heq) hk.ne
  have htaken : ∀ {j dir}, s.holds j = .reserved dir → dir ≠ entryDir pid s.seq := by
    rintro j dir hj rfl
    obtain ⟨-, k, hk, hdir⟩ := h.reserved j _ hj
    exact hnew k hk (entryDir_injective hdir).symm
  refine ⟨?_, ?_, ?_, ?_⟩
  · rw [h.seq]
    exact (UInt64.ofNat_add n 1).symm
  · intro m hm
    obtain ⟨k, hk, rfl⟩ := h.used m hm
    exact ⟨k, hk.trans n.lt_succ_self, rfl⟩
  · intro j dir hj
    rcases reserved_update hj with ⟨-, rfl⟩ | ⟨-, hj⟩
    · refine ⟨?_, n, n.lt_succ_self, by rw [h.seq]⟩
      by_contra hthere
      obtain ⟨k, hk, heq⟩ := h.used s.seq hthere
      exact hnew k hk heq.symm
    · obtain ⟨hfree, k, hk, hdir⟩ := h.reserved j dir hj
      exact ⟨hfree, k, hk.trans n.lt_succ_self, hdir⟩
  · intro i j dir hi hj
    rcases reserved_update hi with ⟨rfl, hdir⟩ | ⟨-, hi'⟩
    · rcases reserved_update hj with ⟨rfl, -⟩ | ⟨-, hj'⟩
      · rfl
      · exact absurd hdir (htaken hj')
    · rcases reserved_update hj with ⟨rfl, hdir⟩ | ⟨-, hj'⟩
      · exact absurd hdir (htaken hi')
      · exact h.distinct i j dir hi' hj'

def TsmEvent.numbers (e : TsmEvent) : Nat := if e.reserves then 1 else 0

theorem numbered_step {e : TsmEvent} (hstep : TsmStep pid quotes s e t) (h : Numbered pid n s)
    (hn : n + e.numbers ≤ 2 ^ 64) : Numbered pid (n + e.numbers) t := by
  cases hstep with
  | @foreign dir content hother =>
    refine ⟨h.seq, ?_, ?_, h.distinct⟩
    · intro m hm
      simp only [Function.update_of_ne (hother m).symm] at hm
      exact h.used m hm
    · intro id dir' hhold
      obtain ⟨hfree, k, hk, rfl⟩ := h.reserved id dir' hhold
      exact ⟨(Function.update_of_ne (hother _).symm _ _).trans hfree, k, hk, rfl⟩
  | @reserve id hhold => exact h.reserve hn id
  | @make id dir hhold hfree =>
    refine h.settle (by simp) ?_ ?_
    · intro m hm
      by_cases hd : entryDir pid m = dir
      · obtain ⟨-, k, hk, hdir⟩ := h.reserved id dir hhold
        exact ⟨k, hk, entryDir_injective (hd.trans hdir)⟩
      · rw [Function.update_of_ne hd] at hm
        exact h.used m hm
    · intro j dir' hj hhold'
      have hd : dir' ≠ dir := by
        rintro rfl
        exact hj (h.distinct j id dir' hhold' hhold)
      exact (Function.update_of_ne hd _ _).trans (h.reserved j dir' hhold').1
  | refuse _ => exact h.settle (by simp) h.used fun j dir _ hj => (h.reserved j dir hj).1
  | @fill id dir reportData hhold hthere => exact h.rewrite (by simp) (by simp [hthere])
  | @spoil id dir content hhold hsame => exact h.rewrite (by simp) hsame
  | quote _ _ _ => exact h
  | @remove id dir x hhold =>
    refine h.settle (by simp) ?_ ?_
    · intro m hm
      by_cases hd : entryDir pid m = dir
      · simp [hd] at hm
      · rw [Function.update_of_ne hd] at hm
        exact h.used m hm
    · intro j dir' _ hhold'
      by_cases hd : dir' = dir
      · simp [hd]
      · exact (Function.update_of_ne hd _ _).trans (h.reserved j dir' hhold').1
  | leak _ => exact h.settle (by simp) h.used fun j dir _ hj => (h.reserved j dir hj).1

def reservations (es : List TsmEvent) : Nat := (es.map TsmEvent.numbers).sum

theorem numbered_run {entries : Entries} (hclean : ∀ seq, entries (entryDir pid seq) = none) {es : List TsmEvent}
    (h : Run (TsmStep pid quotes) (Tsm.boot entries) es s) (hn : reservations es ≤ 2 ^ 64) :
    Numbered pid (reservations es) s := by
  refine h.reverseInduction (P := fun es s => reservations es ≤ 2 ^ 64 → Numbered pid (reservations es) s) ?_ ?_ hn
  · intro _
    exact numbered_boot hclean
  · intro es s e t _ hstep ih hn
    simp only [reservations, List.map_append, List.sum_append, List.map_cons, List.map_nil, List.sum_cons,
      List.sum_nil, Nat.add_zero] at hn ⊢
    exact numbered_step hstep (ih (Nat.le_of_add_right_le hn)) hn

end Numbers

def HostEvent.fetchAdds : HostEvent → Bool
  | .perform _ .fetchAdd _ => true
  | _ => false

theorem reservations_eq (es : List HostEvent) : reservations (tsmEvents es) = es.countP HostEvent.fetchAdds := by
  induction es with
  | nil => rfl
  | cons e es ih =>
    have hhead : ((HostEvent.tsm e).toList.map TsmEvent.numbers).sum = if e.fetchAdds then 1 else 0 := by
      unfold HostEvent.tsm
      split <;> simp_all [HostEvent.fetchAdds, TsmEvent.numbers, TsmEvent.reserves]
    have hcons : tsmEvents (e :: es) = (HostEvent.tsm e).toList ++ tsmEvents es := by
      simp only [tsmEvents, List.filterMap_cons]
      cases HostEvent.tsm e <;> rfl
    rw [hcons, reservations, List.map_append, List.sum_append, hhead, ← reservations, ih, List.countP_cons,
      Nat.add_comm]

/-- On a clean start `create_dir` never meets an entry: short of 2^64 quotes no two
requests of the process take one name. -/
theorem entry_names_fresh {P : Primitives} {C : Config P} {pid : UInt32} {quotes : List UInt8 → List UInt8 → Prop}
    {entries : Entries} {es : List HostEvent} {p : HostState} (h : Run (HostStep C pid quotes) (hostBoot entries) es p)
    (hclean : ∀ seq, entries (entryDir pid seq) = none) (hcount : es.countP HostEvent.fetchAdds ≤ 2 ^ 64) {id : Nat}
    {req : Request} {done : List (Performed HostOp HostAns)} {dir : String} {k : Bool → HostProg Response}
    (ht : p.task id = some ⟨req, done, .call (.createDir dir) k⟩) : p.shared.entries dir = none := by
  have hnum := numbered_run hclean (tsm_run h) (reservations_eq es ▸ hcount)
  have hperm : Hold.Permits (heldAfter pid done) (.createDir dir) := (keeps_rest (fun _ _ => Pool.follows h) ht).1
  generalize hheld : heldAfter pid done = hold at hperm
  cases hperm
  exact (hnum.reserved id dir ((held_eq ht).trans hheld)).1

theorem entry_names_fresh_first : ∃ es p dir k,
    Run (HostStep Synthetic.config 7 Synthetic.tdxModule) (hostBoot fun _ => none) es p ∧
    (p.task 0).map Task.prog = some (.call (.createDir dir) k) ∧ p.shared.entries dir = none := by
  obtain ⟨p, hrun, -⟩ := Synthetic.quote_run 7
  obtain ⟨pre, post, a, b, hes, hpre, hstep, -⟩ :=
    hrun.split_at (e := .perform 0 (.createDir (entryDir 7 0)) true)
      (by simp [Synthetic.quoteEvents, Synthetic.hostCalls, quoteCalls])
  obtain ⟨req, done, k, ht, -, -⟩ := Pool.perform_inv hstep
  have hcount : pre.countP HostEvent.fetchAdds ≤ 2 ^ 64 := by
    have htotal : (Synthetic.quoteEvents 7).countP HostEvent.fetchAdds = 1 := rfl
    rw [hes, List.countP_append] at htotal
    omega
  exact ⟨pre, a, _, k, hpre, by rw [ht]; rfl, entry_names_fresh hpre (fun _ => rfl) hcount ht⟩

end IronInstance
