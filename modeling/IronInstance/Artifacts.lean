import Mathlib.Data.List.DropRight
import IronInstance.Library.SymbolicLinks

/-!
# iron-fetch-artifacts

The script that fetches the pinned model files and checks each against its sha256,
without `--run-vllm`. The data directory is the root of the disk, of whatever kind its
file system is. What `jq` reads is data; the network may fail or deliver anything, and
`podman pull` and `sha256sum` are opaque.
-/

namespace IronInstance
open FileSystem
set_option autoImplicit false

def components (path : String) : Path := (path.toList.splitOn '/').map String.ofList

/-- A plain relative file path: no empty, `.` or `..` component, and no character that
the shell or `sha256sum` would treat specially. -/
structure PinnedPath where
  text : String
  components_plain : ∀ c ∈ components text, c ≠ "" ∧ c ≠ "." ∧ c ≠ ".."
  chars_plain : ∀ c ∈ text.toList, c ≠ '\n' ∧ c ≠ '\\' ∧ c ≠ Char.ofNat 0

/-- One element of `model.files`; a missing field is `none`. -/
structure ModelFile where
  path : PinnedPath
  url : Option String
  sha256 : Option String

structure PinnedArtifacts where
  image : Option String
  digest : Option String
  repo : Option String
  revision : Option String
  files : List ModelFile

/-- `jq -r` prints `null` for a missing field. -/
def jqRaw (field : Option String) : String := field.getD "null"

/-- `$(..)` drops NUL bytes and trailing newlines. -/
def capture (out : String) : String :=
  String.ofList ((out.toList.filter (· ≠ Char.ofNat 0)).rdropWhile (· == '\n'))

def modelDir : Path := ["model"]

def ModelFile.dest (e : ModelFile) : Path := modelDir ++ components e.path.text

def ModelFile.want (e : ModelFile) : String := capture (jqRaw e.sha256)

inductive Download where
  | failed (written : Option Bytes)
  | delivered (bytes : Bytes)

structure World where
  podmanPull : String → Bool
  download : Nat → String → Download
  sha256sum : Bytes → String

inductive Fatal where
  | die (msg : String)
  | errexit
  deriving DecidableEq

/-- What the script prints about a file. -/
inductive Action where
  | alreadyPresent (path : String)
  | fetching (path : String)
  | fetched (path : String)
  deriving DecidableEq

/-- How a part of the script ended: `fatal = none` means that it goes on, or exits 0. -/
structure Outcome (δ : Type) where
  disk : δ
  fatal : Option Fatal
  log : List Action

section Script
variable {δ : Type} [Files δ] (W : World)

/-- `[[ -f "$dest" ]] && [[ "$(sha256sum "$dest" ..)" == "$want" ]]` -/
def verified (d : δ) (p : Path) (want : String) : Bool :=
  match Files.read d p with
  | some bytes => W.sha256sum bytes == want
  | none => false

/-- A failed download may leave part of a file behind. -/
def curl (dl : Download) (d : δ) (p : Path) : Bool × δ :=
  match dl with
  | .failed none => (false, d)
  | .failed (some bytes) => (false, (Files.write d p bytes).2)
  | .delivered bytes => Files.write d p bytes

def checkFetched (e : ModelFile) (d : δ) : Outcome δ :=
  match Files.read d e.dest with
  | none => ⟨d, some .errexit, [.fetching e.path.text]⟩
  | some bytes =>
    if W.sha256sum bytes ≠ e.want then
      ⟨Files.unlink d e.dest, some (.die ("sha256 MISMATCH for " ++ e.path.text ++ ": pinned " ++ e.want ++ ", got " ++
        W.sha256sum bytes ++ " -- refusing to start")), [.fetching e.path.text]⟩
    else ⟨d, none, [.fetching e.path.text, .fetched e.path.text]⟩

def fetchFile (i : Nat) (e : ModelFile) (d : δ) : Outcome δ :=
  if e.want = "" then ⟨d, some (.die ("no sha256 pinned for " ++ e.path.text)), []⟩
  else
    match Files.mkdirP d e.dest.dropLast with
    | (false, d) => ⟨d, some .errexit, []⟩
    | (true, d) =>
      if verified W d e.dest e.want then ⟨d, none, [.alreadyPresent e.path.text]⟩
      else
        match curl (W.download i (capture (jqRaw e.url))) d e.dest with
        | (false, d) => ⟨d, some (.die ("download failed for " ++ e.path.text)), [.fetching e.path.text]⟩
        | (true, d) => checkFetched W e d

def fetchAll : Nat → List ModelFile → δ → Outcome δ
  | _, [], d => ⟨d, none, []⟩
  | i, e :: es, d =>
    let o := fetchFile W i e d
    match o.fatal with
    | some _ => o
    | none =>
      let rest := fetchAll (i + 1) es o.disk
      ⟨rest.disk, rest.fatal, o.log ++ rest.log⟩

def fetchArtifacts (A : PinnedArtifacts) (d : δ) : Outcome δ :=
  let image := capture (jqRaw A.image)
  let digest := capture (jqRaw A.digest)
  if ¬ (digest ≠ "" ∧ "sha256:".toList.isPrefixOf digest.toList) then
    ⟨d, some (.die "vllm.digest is not pinned (run nix/pin-artifacts.sh)"), []⟩
  else if ¬ 0 < A.files.length then
    ⟨d, some (.die "model.files is empty (run nix/pin-artifacts.sh)"), []⟩
  else if capture (jqRaw A.repo) = "" ∨ capture (jqRaw A.revision) = "" then
    ⟨d, some (.die "model.repo/revision not pinned"), []⟩
  else
    match Files.mkdirP d modelDir with
    | (false, d) => ⟨d, some .errexit, []⟩
    | (true, d) =>
      if !W.podmanPull (image ++ "@" ++ digest) then
        ⟨d, some (.die "could not pull the pinned vLLM image (digest mismatch, or upstream is down)"), []⟩
      else fetchAll W 0 A.files d

end Script

def ModelFile.delivered (e : ModelFile) (W : World) (i : Nat) (bytes : Bytes) : Prop :=
  W.download i (capture (jqRaw e.url)) = .delivered bytes

section Loop
variable {δ : Type} [Files δ] {W : World}

theorem verified_iff {d : δ} {p : Path} {want : String} :
    verified W d p want = true ↔ ∃ bytes, Files.read d p = some bytes ∧ W.sha256sum bytes = want := by
  unfold verified
  cases Files.read d p <;> simp

theorem verified_congr {d d' : δ} {p : Path} {want : String} (h : Files.read d' p = Files.read d p) :
    verified W d' p want = verified W d p want := by
  unfold verified
  rw [h]

/-! ## One file -/

/-- What fetching one file comes to. -/
inductive FetchCase (W : World) (i : Nat) (e : ModelFile) (d : δ) : Outcome δ → Prop where
  | stopped {d' : δ} (f : Fatal) : FetchCase W i e d ⟨d', some f, []⟩
  | alreadyPresent {d' : δ} (ht : Affects e.dest d d') (hread : Files.read d' e.dest = Files.read d e.dest)
      (hv : verified W d' e.dest e.want = true) : FetchCase W i e d ⟨d', none, [.alreadyPresent e.path.text]⟩
  | refused {d' : δ} (f : Fatal) (hgone : ∀ bytes, e.delivered W i bytes → Files.read d' e.dest = none) :
      FetchCase W i e d ⟨d', some f, [.fetching e.path.text]⟩
  | fetched {d' : δ} (ht : Affects e.dest d d') (hv : verified W d' e.dest e.want = true)
      (hdelivered : ∃ bytes, e.delivered W i bytes ∧ W.sha256sum bytes = e.want) :
      FetchCase W i e d ⟨d', none, [.fetching e.path.text, .fetched e.path.text]⟩

/-- A file that lets the loop go on is verified, and only its own path was written. -/
theorem FetchCase.ok {i : Nat} {e : ModelFile} {d : δ} {o : Outcome δ} (h : FetchCase W i e d o)
    (hok : o.fatal = none) : verified W o.disk e.dest e.want = true ∧ Affects e.dest d o.disk := by
  cases h with
  | stopped f => cases hok
  | refused f hgone => cases hok
  | alreadyPresent ht hread hv => exact ⟨hv, ht⟩
  | fetched ht hv hdelivered => exact ⟨hv, ht⟩

variable [LawfulFiles δ]

theorem curl_affects (dl : Download) (d : δ) (p : Path) : Affects p d (curl dl d p).2 := by
  rcases dl with (_ | bytes) | bytes
  · exact .refl p d
  · exact .write p d bytes
  · exact .write p d bytes

theorem curl_ok {dl : Download} {d d' : δ} {p : Path} (h : curl dl d p = (true, d')) :
    ∃ bytes, dl = .delivered bytes ∧ Files.read d' p = some bytes := by
  rcases dl with (_ | written) | bytes
  · cases h
  · cases h
  · have hok := LawfulFiles.write_ok d p bytes
    change Files.write d p bytes = (true, d') at h
    rw [h] at hok
    exact ⟨bytes, rfl, hok rfl⟩

/-- What was delivered and could not be written is not there. -/
theorem curl_failed {bytes : Bytes} {d d' : δ} {p : Path} (h : curl (.delivered bytes) d p = (false, d')) :
    Files.read d' p = none := by
  have hfailed := LawfulFiles.write_failed d p bytes
  change Files.write d p bytes = (false, d') at h
  rw [h] at hfailed
  exact hfailed rfl

theorem checkFetched_cases {i : Nat} {e : ModelFile} {d d' : δ} {bytes : Bytes} (ht : Affects e.dest d d')
    (hdelivered : e.delivered W i bytes) (hread : Files.read d' e.dest = some bytes) :
    FetchCase W i e d (checkFetched W e d') := by
  unfold checkFetched
  simp only [hread]
  split
  · exact .refused _ fun _ _ => LawfulFiles.unlink_self d' e.dest
  · rename_i hsha
    exact .fetched ht (verified_iff.mpr ⟨bytes, hread, not_not.mp hsha⟩) ⟨bytes, hdelivered, not_not.mp hsha⟩

theorem fetchFile_cases (i : Nat) (e : ModelFile) (d : δ) : FetchCase W i e d (fetchFile W i e d) := by
  unfold fetchFile
  split
  · exact .stopped _
  have hdir := Affects.mkdirP e.dest e.dest.dropLast d
  have hread := LawfulFiles.mkdirP_read d e.dest.dropLast e.dest
  generalize Files.mkdirP d e.dest.dropLast = made at hdir hread ⊢
  rcases made with ⟨_ | _, d₁⟩
  · exact .stopped _
  simp only
  split
  · rename_i hv
    exact .alreadyPresent hdir hread hv
  have hcurl := hdir.trans (curl_affects (W.download i (capture (jqRaw e.url))) d₁ e.dest)
  generalize hgot : curl (W.download i (capture (jqRaw e.url))) d₁ e.dest = got at hcurl ⊢
  rcases got with ⟨_ | _, d₂⟩
  · refine .refused _ fun bytes hdelivered => ?_
    rw [hdelivered] at hgot
    exact curl_failed hgot
  · obtain ⟨bytes, hdelivered, hread₂⟩ := curl_ok hgot
    exact checkFetched_cases hcurl hdelivered hread₂

/-! ## The loop -/

omit [LawfulFiles δ] in
theorem fetchAll_of_fatal {i : Nat} {e : ModelFile} {es : List ModelFile} {d : δ} {f : Fatal}
    (h : (fetchFile W i e d).fatal = some f) : fetchAll W i (e :: es) d = fetchFile W i e d := by
  simp only [fetchAll, h]

omit [LawfulFiles δ] in
theorem fetchAll_of_ok {i : Nat} {e : ModelFile} {es : List ModelFile} {d : δ}
    (h : (fetchFile W i e d).fatal = none) :
    fetchAll W i (e :: es) d = ⟨(fetchAll W (i + 1) es (fetchFile W i e d).disk).disk,
      (fetchAll W (i + 1) es (fetchFile W i e d).disk).fatal,
      (fetchFile W i e d).log ++ (fetchAll W (i + 1) es (fetchFile W i e d).disk).log⟩ := by
  simp only [fetchAll, h]

omit [LawfulFiles δ] in
theorem fetchAll_ok_cons {i : Nat} {e : ModelFile} {es : List ModelFile} {d : δ}
    (h : (fetchAll W i (e :: es) d).fatal = none) :
    (fetchFile W i e d).fatal = none ∧ (fetchAll W (i + 1) es (fetchFile W i e d).disk).fatal = none := by
  cases hfatal : (fetchFile W i e d).fatal with
  | some f =>
    rw [fetchAll_of_fatal hfatal, hfatal] at h
    cases h
  | none =>
    rw [fetchAll_of_ok hfatal] at h
    exact ⟨rfl, h⟩

/-- No two of the files lead to one. -/
def Separate (d : δ) (es : List ModelFile) : Prop := es.Pairwise fun e e' => ¬ Files.Same d e.dest e'.dest

omit [LawfulFiles δ] in
theorem Separate.affects {p : Path} {d d' : δ} {es : List ModelFile} (h : Separate d es) (ht : Affects p d d') :
    Separate d' es :=
  List.Pairwise.imp (fun hne hs => hne (ht.same _ _ hs)) h

theorem fetchAll_read_other {i : Nat} {es : List ModelFile} {d : δ} {q : Path}
    (hok : (fetchAll W i es d).fatal = none) (hq : ∀ e ∈ es, ¬ Files.Same d e.dest q) :
    Files.read (fetchAll W i es d).disk q = Files.read d q := by
  induction es generalizing i d with
  | nil => rfl
  | cons e es ih =>
    obtain ⟨hfirst, hrest⟩ := fetchAll_ok_cons hok
    have ht := ((fetchFile_cases i e d).ok hfirst).2
    rw [fetchAll_of_ok hfirst]
    simp only
    rw [ih hrest fun e' he' hs => hq e' (List.mem_cons_of_mem _ he') (ht.same _ _ hs)]
    exact ht.read q (hq e List.mem_cons_self)

/-- A loop that gets to its end has verified every file, and all are still verified. -/
theorem fetchAll_verified {i : Nat} {es : List ModelFile} {d : δ} (hsep : Separate d es)
    (hok : (fetchAll W i es d).fatal = none) :
    ∀ e ∈ es, verified W (fetchAll W i es d).disk e.dest e.want = true := by
  induction es generalizing i d with
  | nil => simp
  | cons e es ih =>
    obtain ⟨hfirst, hrest⟩ := fetchAll_ok_cons hok
    obtain ⟨hv, ht⟩ := (fetchFile_cases i e d).ok hfirst
    obtain ⟨hne, hsep'⟩ := List.pairwise_cons.mp hsep
    rw [fetchAll_of_ok hfirst]
    simp only
    intro e' he'
    rcases List.mem_cons.mp he' with rfl | he'
    · rw [verified_congr (fetchAll_read_other hrest fun e₁ he₁ hs => ?_)]
      · exact hv
      · exact hne e₁ he₁ (LawfulFiles.same_symm d _ _ (ht.same _ _ hs))
    · exact ih (Separate.affects hsep' ht) hrest e' he'

def Action.path : Action → String
  | .alreadyPresent path => path
  | .fetching path => path
  | .fetched path => path

theorem fetchFile_log {i : Nat} {e : ModelFile} {d : δ} {a : Action} (h : a ∈ (fetchFile W i e d).log) :
    a.path = e.path.text := by
  have hcase := fetchFile_cases (W := W) i e d
  generalize fetchFile W i e d = o at hcase h
  cases hcase with
  | stopped f => cases h
  | alreadyPresent ht hread hv =>
    rw [List.mem_singleton.mp h]
    rfl
  | refused f hgone =>
    rw [List.mem_singleton.mp h]
    rfl
  | fetched ht hv hdelivered =>
    rcases List.mem_pair.mp h with rfl | rfl
    · rfl
    · rfl

/-- The log lines of a file are those of its own turn. -/
theorem mem_log_tail {i : Nat} {e e' : ModelFile} {es : List ModelFile} {d : δ} {a : Action}
    (hne : e.path.text ≠ e'.path.text) (ha : a.path = e'.path.text)
    (h : a ∈ (fetchAll W i (e :: es) d).log) :
    (fetchFile W i e d).fatal = none ∧ a ∈ (fetchAll W (i + 1) es (fetchFile W i e d).disk).log := by
  have hown : a ∉ (fetchFile W i e d).log := fun hin => hne ((fetchFile_log hin).symm.trans ha)
  cases hfatal : (fetchFile W i e d).fatal with
  | some f =>
    rw [fetchAll_of_fatal hfatal] at h
    exact absurd h hown
  | none =>
    rw [fetchAll_of_ok hfatal] at h
    exact ⟨rfl, (List.mem_append.mp h).resolve_left hown⟩

theorem fetchAll_log {i : Nat} {es : List ModelFile} {d : δ} {a : Action} (h : a ∈ (fetchAll W i es d).log) :
    ∃ e ∈ es, a.path = e.path.text := by
  induction es generalizing i d with
  | nil => cases h
  | cons e es ih =>
    by_cases hown : a ∈ (fetchFile W i e d).log
    · exact ⟨e, List.mem_cons_self, fetchFile_log hown⟩
    · cases hfatal : (fetchFile W i e d).fatal with
      | some f =>
        rw [fetchAll_of_fatal hfatal] at h
        exact absurd h hown
      | none =>
        rw [fetchAll_of_ok hfatal] at h
        obtain ⟨e', he', hpath⟩ := ih ((List.mem_append.mp h).resolve_left hown)
        exact ⟨e', List.mem_cons_of_mem _ he', hpath⟩

/-- Bytes with another hash, delivered for a file that was not there: the loop does not
get to its end, and if the file's turn came nothing is left of them. -/
theorem fetchAll_mismatch {i k : Nat} {e : ModelFile} {es : List ModelFile} {d : δ} {bytes : Bytes}
    (hdistinct : (es.map fun e => e.path.text).Nodup) (hsep : Separate d es) (hk : es[k]? = some e)
    (hdelivered : e.delivered W (i + k) bytes) (hbad : W.sha256sum bytes ≠ e.want)
    (habsent : verified W d e.dest e.want = false) :
    (fetchAll W i es d).fatal ≠ none ∧
      (.fetching e.path.text ∈ (fetchAll W i es d).log → Files.read (fetchAll W i es d).disk e.dest = none) := by
  induction es generalizing i k d with
  | nil => cases hk
  | cons e₀ es ih =>
    obtain ⟨hnew, hdistinct'⟩ := List.nodup_cons.mp hdistinct
    obtain ⟨hne, hsep'⟩ := List.pairwise_cons.mp hsep
    cases k with
    | zero =>
      cases hk
      have hcase := fetchFile_cases (W := W) i e d
      rw [fetchAll]
      generalize fetchFile W i e d = o at hcase ⊢
      cases hcase with
      | stopped f => exact ⟨by simp, fun h => by cases h⟩
      | alreadyPresent ht hread hv =>
        rw [verified_congr hread, habsent] at hv
        cases hv
      | refused f hgone => exact ⟨by simp, fun _ => hgone bytes hdelivered⟩
      | fetched ht hv hother =>
        obtain ⟨bytes', hdelivered', hsha⟩ := hother
        have heq : bytes = bytes' := Download.delivered.inj (hdelivered.symm.trans hdelivered')
        exact absurd (heq ▸ hsha) hbad
    | succ k =>
      have hmem : e ∈ es := List.mem_of_getElem? hk
      have htext : e₀.path.text ≠ e.path.text := fun heq => hnew (List.mem_map.mpr ⟨e, hmem, heq.symm⟩)
      cases hfatal : (fetchFile W i e₀ d).fatal with
      | some f =>
        refine ⟨?_, fun hlog => ?_⟩
        · rw [fetchAll_of_fatal hfatal, hfatal]
          simp
        · have := (mem_log_tail htext rfl hlog).1
          rw [hfatal] at this
          cases this
      | none =>
        have ht := ((fetchFile_cases i e₀ d).ok hfatal).2
        have habsent' : verified W (fetchFile W i e₀ d).disk e.dest e.want = false := by
          rw [verified_congr (ht.read _ (hne e hmem))]
          exact habsent
        have hdelivered' : e.delivered W (i + 1 + k) bytes := by
          rwa [Nat.add_assoc, Nat.add_comm 1 k]
        obtain ⟨hstop, hgone⟩ := ih hdistinct' (Separate.affects hsep' ht) hk hdelivered' habsent'
        refine ⟨?_, fun hlog => ?_⟩
        · rw [fetchAll_of_ok hfatal]
          exact hstop
        · have hrest := (mem_log_tail htext rfl hlog).2
          rw [fetchAll_of_ok hfatal]
          exact hgone hrest

/-- A download is skipped only for bytes that were on the disk and match the pin. -/
theorem fetchAll_skipped {i : Nat} {e : ModelFile} {es : List ModelFile} {d : δ}
    (hdistinct : (es.map fun e => e.path.text).Nodup) (hsep : Separate d es) (he : e ∈ es)
    (h : .alreadyPresent e.path.text ∈ (fetchAll W i es d).log ∨
      ((fetchAll W i es d).fatal = none ∧ .fetching e.path.text ∉ (fetchAll W i es d).log)) :
    verified W d e.dest e.want = true := by
  induction es generalizing i d with
  | nil => cases he
  | cons e₀ es ih =>
    obtain ⟨hnew, hdistinct'⟩ := List.nodup_cons.mp hdistinct
    obtain ⟨hne, hsep'⟩ := List.pairwise_cons.mp hsep
    rcases List.mem_cons.mp he with rfl | hmem
    · have hcase := fetchFile_cases (W := W) i e d
      rw [fetchAll] at h
      generalize fetchFile W i e d = o at hcase h
      cases hcase with
      | stopped f => simp at h
      | alreadyPresent ht hread hv => exact verified_congr hread ▸ hv
      | refused f hgone => simp at h
      | @fetched d' ht hv hdelivered =>
        simp only [List.cons_append, List.nil_append, List.mem_cons, reduceCtorEq, false_or, true_or,
          not_true_eq_false, and_false, or_false] at h
        obtain ⟨e', he', hpath⟩ := fetchAll_log h
        exact absurd (List.mem_map.mpr ⟨e', he', hpath.symm⟩) hnew
    · have htext : e₀.path.text ≠ e.path.text := fun heq => hnew (List.mem_map.mpr ⟨e, hmem, heq.symm⟩)
      have hgo : (fetchFile W i e₀ d).fatal = none := by
        rcases h with hpresent | ⟨hok, -⟩
        · exact (mem_log_tail htext rfl hpresent).1
        · exact (fetchAll_ok_cons hok).1
      have ht := ((fetchFile_cases i e₀ d).ok hgo).2
      rw [← verified_congr (ht.read _ (hne e hmem))]
      refine ih (i := i + 1) hdistinct' (Separate.affects hsep' ht) hmem ?_
      rcases h with hpresent | ⟨hok, hfetch⟩
      · exact .inl (mem_log_tail htext rfl hpresent).2
      · refine .inr ⟨(fetchAll_ok_cons hok).2, fun hin => hfetch ?_⟩
        rw [fetchAll_of_ok hgo]
        exact List.mem_append_right _ hin

end Loop

/-! ## The script -/

theorem components_injective {a b : String} (h : components a = components b) : a = b := by
  have hsplit : a.toList.splitOn '/' = b.toList.splitOn '/' :=
    List.map_injective_iff.mpr (fun _ _ => String.ofList_inj.mp) h
  have hjoin := congrArg (['/'].intercalate ·) hsplit
  simp only [List.intercalate_splitOn] at hjoin
  exact String.toList_inj.mp hjoin

theorem ModelFile.dest_injective {e e' : ModelFile} (h : e.dest = e'.dest) : e.path.text = e'.path.text :=
  components_injective (List.append_cancel_left h)

theorem fetchArtifacts_cases {δ : Type} [Files δ] (W : World) (A : PinnedArtifacts) (d : δ) :
    (∃ f d', fetchArtifacts W A d = ⟨d', some f, []⟩) ∨
      ("sha256:".toList.isPrefixOf (capture (jqRaw A.digest)).toList = true ∧ A.files ≠ [] ∧
        fetchArtifacts W A d = fetchAll W 0 A.files (Files.mkdirP d modelDir).2) := by
  unfold fetchArtifacts
  simp only
  split
  · exact .inl ⟨_, _, rfl⟩
  rename_i hdigest
  split
  · exact .inl ⟨_, _, rfl⟩
  rename_i hfiles
  split
  · exact .inl ⟨_, _, rfl⟩
  rcases Files.mkdirP d modelDir with ⟨_ | _, d₁⟩
  · exact .inl ⟨_, _, rfl⟩
  simp only
  split
  · exact .inl ⟨_, _, rfl⟩
  · exact .inr ⟨(not_not.mp hdigest).2, List.length_pos_iff.mp (not_not.mp hfiles), rfl⟩

section Empty
variable {d : Volume} (h : ∀ p, p ≠ [] → d.disk.node p = none ∧ d.link p = none)
include h

theorem place_empty (p : Path) : d.place p = some p := by
  refine Volume.place_of_no_links (fun p => ?_) p
  by_cases hp : p = []
  · rw [hp]
    exact d.fits.link_root
  · exact (h p hp).2

theorem read_empty (p : Path) : d.read p = none := by
  rw [Volume.read_of_place (place_empty h p), Disk.read]
  by_cases hp : p = []
  · rw [hp, d.fits.root]
  · rw [(h p hp).1]

theorem eq_of_same_empty {p q : Path} (hq : q ≠ []) (hs : d.Same p q) : p = q := by
  obtain ⟨r, r', hr, hr', hrr'⟩ := hs
  rw [place_empty h] at hr hr'
  cases hr
  cases hr'
  rcases hrr' with heq | ⟨i, -, hi⟩
  · exact heq
  · rw [(h q hq).1] at hi
    cases hi

end Empty

/-- If the script exits 0, every pinned file is on the disk with the pinned sha256. -/
def ExitZeroVerifies : Prop :=
  ∀ W A (d : Volume), (A.files.map fun e => e.path.text).Nodup →
    (A.files.Pairwise fun e e' => ¬ e.dest <+: e'.dest ∧ ¬ e'.dest <+: e.dest) →
    (fetchArtifacts W A d).fatal = none →
    ∀ e ∈ A.files, ∃ bytes, (fetchArtifacts W A d).disk.read e.dest = some bytes ∧ W.sha256sum bytes = e.want

namespace TwoFiles

/-- SHA-256 of `A` and of `B`; the other value stands for every other content. -/
def sha256sum (bytes : Bytes) : String :=
  if bytes = [65] then "559aead08264d5795d3909718cdd05abd49572e84fe55590eef31a88a08fdffd"
  else if bytes = [66] then "df7e70e5021544f4834bbee64a9e3789febc4be81470df629cad6ddb03320a5c"
  else "e3b0c44298fc1c149afbf4c8996fb92427ae41e4649b934ca495991b7852b855"

def file (name : String) (bytes : Bytes) (hc : ∀ c ∈ components name, c ≠ "" ∧ c ≠ "." ∧ c ≠ "..")
    (hp : ∀ c ∈ name.toList, c ≠ '\n' ∧ c ≠ '\\' ∧ c ≠ Char.ofNat 0) : ModelFile :=
  ⟨⟨name, hc, hp⟩, some name, some (sha256sum bytes)⟩

def a : ModelFile := file "a" [65] (by decide +kernel) (by simp)

def b : ModelFile := file "b" [66] (by decide +kernel) (by simp)

def artifacts : PinnedArtifacts :=
  ⟨some "docker.io/vllm/vllm-openai", some "sha256:00", some "org/model", some "rev", [a, b]⟩

def world : World where
  podmanPull _ := true
  download _ url := if url = "a" then .delivered [65] else .delivered [66]
  sha256sum := sha256sum

/-- A mirror that has other bytes for the second file. -/
def tampering : World := { world with download := fun _ url => if url = "a" then .delivered [65] else .delivered [67] }

def emptyDir : Volume where
  disk :=
    { node := fun p => if p = [] then some .dir else none
      content := fun _ => []
      next := 0
      inUse := by
        intro p i h
        split at h <;> cases h }
  link _ := none
  fits := ⟨rfl, fun _ _ h => (by cases h), fun p c h => (by simp at h)⟩

/-- Leftovers in which both paths are hard links of one empty file. -/
def linkedDir : Volume where
  disk :=
    { node := fun p => if p = ["model", "a"] ∨ p = ["model", "b"] then some (.file 0)
        else if p = [] ∨ p = ["model"] then some .dir else none
      content := fun _ => []
      next := 1
      inUse := by
        intro p i h
        split at h
        · cases h
          decide
        · split at h <;> cases h }
  link _ := none
  fits := by
    refine ⟨rfl, fun _ _ h => (by cases h), fun p c h => ?_⟩
    rcases p with _ | ⟨x, _ | ⟨y, p⟩⟩
    · rfl
    · by_cases hx : x = "model"
      · simp [hx]
      · simp [hx] at h
    · simp at h

theorem distinct : (artifacts.files.map fun e => e.path.text).Nodup := by
  simp [artifacts, a, b, file]

end TwoFiles

end IronInstance
