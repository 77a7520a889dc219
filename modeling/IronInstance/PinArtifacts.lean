import IronInstance.Boot

/-!
# pin-artifacts

The script that pins the vLLM image and the model files before an image is built, and
what its pins are good for at boot: with mirrors that deliver the pinned files, a fresh
data disk passes iron-fetch-artifacts. The registries are opaque; what `jq` makes of
the file listing is data.
-/

namespace IronInstance
open FileSystem
set_option autoImplicit false

/-- An element of the listing as the `jq` program takes it: passed over by
`select(.type=="file")`, printed with `.lfs.oid // ""`, or an error that ends the list. -/
inductive TreeEntry where
  | other
  | file (path : String) (lfsOid : Option String)
  | unreadable
  deriving DecidableEq

/-- An answer of `none` is a non-zero exit. -/
structure PinWorld where
  /-- `curl --fail --silent URL | jq -r FILTER` -/
  curlJq : String → String → Option String
  /-- `skopeo inspect REF | jq -r '.Digest'`, if there is a skopeo -/
  skopeo : Option (String → Option String)
  /-- `curl --head` with a bearer token; the header lines, split at `: ` -/
  curlHead : String → String → Option (List (List String))
  /-- the listing that `curl` writes to tree.json -/
  tree : String → Option (List TreeEntry)
  download : String → Download
  sha256sum : Bytes → String
  /-- whether `jq` can add up the sizes and edit the old artifacts.json -/
  total : Bool
  edit : Bool

structure PinnedEntry where
  path : String
  url : String
  sha256 : String
  deriving DecidableEq

/-- What the script writes into artifacts.json. -/
structure Pins where
  image : String
  digest : String
  repo : String
  revision : String
  files : List PinnedEntry
  deriving DecidableEq

/-! ## The listing -/

/-- `@tsv` -/
def tsvEscape (field : String) : List Char :=
  field.toList.flatMap fun c =>
    if c = '\\' then ['\\', '\\']
    else if c = '\t' then ['\\', 't']
    else if c = '\n' then ['\\', 'n']
    else if c = '\r' then ['\\', 'r']
    else [c]

def treeLines : List TreeEntry → List (List Char)
  | [] => []
  | .other :: rest => treeLines rest
  | .file path lfsOid :: rest => (tsvEscape path ++ '\t' :: tsvEscape (lfsOid.getD "")) :: treeLines rest
  | .unreadable :: _ => []

/-- `IFS=$'\t' read -r path lfsoid`: NULs and the tabs around the line go, the first run
of tabs separates. -/
def readFields (line : List Char) : String × String :=
  let line := ((line.filter (· ≠ Char.ofNat 0)).dropWhile (· == '\t')).rdropWhile (· == '\t')
  (String.ofList (line.takeWhile (· != '\t')),
    String.ofList ((line.dropWhile (· != '\t')).dropWhile (· == '\t')))

/-- `[[ "$path" =~ $EXCLUDE ]]` -/
def excluded (path : String) : Bool :=
  path == ".gitattributes" || path == "README.md" || "LICENSE".toList.isPrefixOf path.toList ||
    "USE_POLICY".toList.isPrefixOf path.toList

/-! ## The script -/

def vllmImage : String := "docker.io/vllm/vllm-openai"

def vllmRepoPath : String := "vllm/vllm-openai"

/-- `${arg:-default}` -/
def argOr (arg : Option String) (fallback : String) : String :=
  match arg with
  | some s => if s = "" then fallback else s
  | none => fallback

/-- `awk -F': ' 'tolower($1)=="docker-content-digest"{print $2}'` -/
def digestHeader (headers : List (List String)) : String :=
  String.join (headers.filterMap fun fields =>
    if (fields.headD "").map Char.toLower = "docker-content-digest" then some (fields.getD 1 "" ++ "\n") else none)

section Script
variable (W : PinWorld)

def vllmDigest (tag : String) : Option String :=
  match W.skopeo with
  | some inspect => (inspect ("docker://" ++ vllmImage ++ ":" ++ tag)).map capture
  | none => do
    let token ← W.curlJq ("https://auth.docker.io/token?service=registry.docker.io&scope=repository:" ++
      vllmRepoPath ++ ":pull") ".token"
    let headers ← W.curlHead (capture token)
      ("https://registry-1.docker.io/v2/" ++ vllmRepoPath ++ "/manifests/" ++ tag)
    some (capture (digestHeader headers))

def resolveUrl (repo commit path : String) : String :=
  "https://huggingface.co/" ++ repo ++ "/resolve/" ++ commit ++ "/" ++ path

/-- The sha of a file: the oid of an LFS file, else the hash of what is downloaded now. -/
def pinSha (url lfsoid : String) : Option String :=
  if lfsoid ≠ "" ∧ lfsoid ≠ "null" then some lfsoid
  else
    match W.download url with
    | .failed _ => none
    | .delivered bytes => some (W.sha256sum bytes)

/-- The body of the loop; `none` is a `continue`. -/
def pinFile (repo commit : String) (line : List Char) : Except Fatal (Option PinnedEntry) :=
  let path := (readFields line).1
  if excluded path then .ok none
  else
    let url := resolveUrl repo commit path
    match pinSha W url (readFields line).2 with
    | none => .error .errexit
    | some sha =>
      if sha.toList.length ≠ 64 then .error (.die ("bad sha256 for " ++ path ++ ": " ++ sha))
      else .ok (some ⟨path, url, sha⟩)

def pinFiles (repo commit : String) : List (List Char) → Except Fatal (List PinnedEntry)
  | [] => .ok []
  | line :: rest => do
    let entry ← pinFile W repo commit line
    let entries ← pinFiles repo commit rest
    .ok (entry.toList ++ entries)

def pinArtifacts (repo : String) (revision vllmTag : Option String) : Except Fatal Pins :=
  match W.curlJq ("https://huggingface.co/api/models/" ++ repo ++ "/revision/" ++ argOr revision "main") ".sha" with
  | none => .error .errexit
  | some sha =>
    let commit := capture sha
    if commit = "" ∨ commit = "null" then .error (.die "could not resolve revision")
    else
      match W.curlJq ("https://huggingface.co/api/models/" ++ repo) ".gated" with
      | none => .error .errexit
      | some gated =>
        if capture gated ≠ "false" then
          .error (.die ("REFUSING: " ++ repo ++ " is gated (" ++ capture gated ++
            "). Boot would need an HF token, which cannot live\nin a public, measured image. Pick an ungated model."))
        else
          match vllmDigest W (argOr vllmTag "latest") with
          | none => .error .errexit
          | some digest =>
            if !"sha256:".toList.isPrefixOf digest.toList then .error (.die "could not resolve vLLM digest")
            else
              match W.tree ("https://huggingface.co/api/models/" ++ repo ++ "/tree/" ++ commit ++ "?recursive=1") with
              | none => .error .errexit
              | some tree => do
                let files ← pinFiles W repo commit (treeLines tree)
                if !W.total || !W.edit then .error .errexit
                else .ok ⟨vllmImage, digest, repo, commit, files⟩

end Script

/-! ## Lines that read back -/

/-- No character that `@tsv` escapes or the shell drops. -/
def Plain (field : String) : Prop :=
  ∀ c ∈ field.toList, c ≠ '\\' ∧ c ≠ '\t' ∧ c ≠ '\n' ∧ c ≠ '\r' ∧ c ≠ Char.ofNat 0

theorem tsvEscape_plain {field : String} (h : Plain field) : tsvEscape field = field.toList := by
  unfold tsvEscape
  calc field.toList.flatMap _ = field.toList.flatMap fun c => [c] := by
        refine List.flatMap_congr fun c hc => ?_
        obtain ⟨hslash, htab, hnl, hcr, -⟩ := h c hc
        simp [hslash, htab, hnl, hcr]
    _ = field.toList := List.flatMap_singleton' _

theorem takeWhile_ne_tab {field : String} (h : Plain field) (rest : List Char) :
    (field.toList ++ '\t' :: rest).takeWhile (· != '\t') = field.toList := by
  rw [List.takeWhile_append_of_pos fun c hc => by simpa using (h c hc).2.1]
  simp

theorem dropWhile_ne_tab {field : String} (h : Plain field) (rest : List Char) :
    (field.toList ++ '\t' :: rest).dropWhile (· != '\t') = '\t' :: rest := by
  rw [List.dropWhile_append_of_pos fun c hc => by simpa using (h c hc).2.1]
  simp

theorem Plain.dropWhile_tab {field : String} (h : Plain field) :
    field.toList.dropWhile (· == '\t') = field.toList := by
  cases hl : field.toList with
  | nil => rfl
  | cons c cs =>
    have htab := (h c (hl ▸ List.mem_cons_self)).2.1
    simp [htab]

theorem Plain.rdropWhile_tab {field : String} (h : Plain field) :
    field.toList.rdropWhile (· == '\t') = field.toList := by
  rw [List.rdropWhile_eq_self_iff]
  intro hne
  simpa using (h _ (List.getLast_mem hne)).2.1

/-- What `jq` prints for a plain path and oid, the loop reads back. -/
theorem readFields_line {path oid : String} (hpath : Plain path) (hne : path ≠ "") (hoid : Plain oid) :
    readFields (tsvEscape path ++ '\t' :: tsvEscape oid) = (path, oid) := by
  rw [tsvEscape_plain hpath, tsvEscape_plain hoid]
  have hnul : ∀ {s : String}, Plain s → s.toList.filter (· ≠ Char.ofNat 0) = s.toList := by
    intro s hs
    exact List.filter_eq_self.mpr fun c hc => by simpa using (hs c hc).2.2.2.2
  have hfilter : (path.toList ++ '\t' :: oid.toList).filter (· ≠ Char.ofNat 0) = path.toList ++ '\t' :: oid.toList := by
    rw [List.filter_append, hnul hpath, List.filter_cons_of_pos (by decide), hnul hoid]
  have hleft : (path.toList ++ '\t' :: oid.toList).dropWhile (· == '\t') = path.toList ++ '\t' :: oid.toList := by
    cases hl : path.toList with
    | nil => exact absurd (String.toList_inj.mp hl) hne
    | cons c cs =>
      have htab := (hpath c (hl ▸ List.mem_cons_self)).2.1
      simp [htab]
  unfold readFields
  simp only [hfilter, hleft]
  by_cases ho : oid = ""
  · subst ho
    -- the tab that ends the line is dropped with the empty field
    have hright : (path.toList ++ '\t' :: "".toList).rdropWhile (· == '\t') = path.toList := by
      have hcons : path.toList ++ '\t' :: "".toList = path.toList ++ ['\t'] := rfl
      rw [hcons, List.rdropWhile_concat_pos _ _ _ (by decide), hpath.rdropWhile_tab]
    have hall : ∀ c ∈ path.toList, (c != '\t') = true := fun c hc => by simpa using (hpath c hc).2.1
    rw [hright, List.takeWhile_eq_self_iff.mpr hall, List.dropWhile_eq_nil_iff.mpr hall]
    simp
  · have hlist : oid.toList ≠ [] := fun h => ho (String.toList_inj.mp h)
    have hright : (path.toList ++ '\t' :: oid.toList).rdropWhile (· == '\t') = path.toList ++ '\t' :: oid.toList := by
      rw [List.rdropWhile_eq_self_iff]
      intro _
      have hlast : (path.toList ++ '\t' :: oid.toList).getLast (by simp) = oid.toList.getLast hlist := by
        simp [List.getLast_cons hlist]
      rw [hlast]
      simpa using (hoid _ (List.getLast_mem hlist)).2.1
    rw [hright, takeWhile_ne_tab hpath, dropWhile_ne_tab hpath, List.dropWhile_cons_of_pos (by decide),
      hoid.dropWhile_tab]
    simp

/-! ## What is pinned -/

/-- The files of a listing. -/
def listed (tree : List TreeEntry) : List (String × String) :=
  tree.filterMap fun
    | .file path lfsOid => some (path, lfsOid.getD "")
    | _ => none

/-- `jq` reads the whole listing, and its names come through the shell. -/
structure Readable (tree : List TreeEntry) : Prop where
  whole : .unreadable ∉ tree
  plain : ∀ f ∈ listed tree, f.1 ≠ "" ∧ Plain f.1 ∧ Plain f.2

theorem treeLines_fields {tree : List TreeEntry} (h : Readable tree) :
    (treeLines tree).map readFields = listed tree := by
  induction tree with
  | nil => rfl
  | cons t rest ih =>
    have hrest : Readable rest := by
      refine ⟨fun hm => h.whole (List.mem_cons_of_mem _ hm), fun f hf => h.plain f ?_⟩
      unfold listed at hf ⊢
      rw [List.filterMap_cons]
      split
      · exact hf
      · exact List.mem_cons_of_mem _ hf
    cases t with
    | other => exact ih hrest
    | unreadable => exact absurd List.mem_cons_self h.whole
    | file path lfsOid =>
      obtain ⟨hne, hpath, hoid⟩ := h.plain (path, lfsOid.getD "") (by simp [listed])
      rw [treeLines, List.map_cons, readFields_line hpath hne hoid, ih hrest]
      rfl

/-- The pin of a listed file: at the resolved commit, with a hash of 64 characters
that is the oid of the listing or that of what was served. -/
structure PinOf (W : PinWorld) (repo commit : String) (f : String × String) (e : PinnedEntry) : Prop where
  path : e.path = f.1
  url : e.url = resolveUrl repo commit f.1
  sha : pinSha W e.url f.2 = some e.sha256
  length : e.sha256.toList.length = 64

section Pinned
variable {W : PinWorld} {repo commit : String}

theorem pinFile_ok {line : List Char} {entry : Option PinnedEntry} (h : pinFile W repo commit line = .ok entry) :
    (excluded (readFields line).1 = true ∧ entry = none) ∨
      (excluded (readFields line).1 = false ∧ ∃ e, entry = some e ∧ PinOf W repo commit (readFields line) e) := by
  unfold pinFile at h
  simp only at h
  split at h
  · rename_i hex
    cases h
    exact .inl ⟨hex, rfl⟩
  rename_i hex
  cases hsha : pinSha W (resolveUrl repo commit (readFields line).1) (readFields line).2 with
  | none =>
    rw [hsha] at h
    cases h
  | some sha =>
    rw [hsha] at h
    simp only at h
    split at h
    · cases h
    rename_i hlen
    cases h
    exact .inr ⟨by simpa using hex, _, rfl, rfl, rfl, hsha, not_not.mp hlen⟩

theorem pinFiles_ok {lines : List (List Char)} {entries : List PinnedEntry}
    (h : pinFiles W repo commit lines = .ok entries) :
    List.Forall₂ (PinOf W repo commit) ((lines.map readFields).filter fun f => !excluded f.1) entries := by
  induction lines generalizing entries with
  | nil =>
    cases h
    exact .nil
  | cons line rest ih =>
    rw [pinFiles] at h
    cases hfile : pinFile W repo commit line with
    | error f =>
      rw [hfile] at h
      cases h
    | ok entry =>
      rw [hfile] at h
      cases hrest : pinFiles W repo commit rest with
      | error f =>
        rw [hrest] at h
        cases h
      | ok more =>
        rw [hrest] at h
        have heq : entry.toList ++ more = entries := Except.ok.inj h
        subst heq
        rcases pinFile_ok hfile with ⟨hex, rfl⟩ | ⟨hex, e, rfl, he⟩
        · simpa [hex] using ih hrest
        · simpa [hex] using List.Forall₂.cons he (ih hrest)

def treeUrl (repo commit : String) : String :=
  "https://huggingface.co/api/models/" ++ repo ++ "/tree/" ++ commit ++ "?recursive=1"

theorem pinArtifacts_ok {revision vllmTag : Option String} {pins : Pins}
    (h : pinArtifacts W repo revision vllmTag = .ok pins) :
    pins.image = vllmImage ∧ pins.repo = repo ∧ (∃ sha, pins.revision = capture sha) ∧ pins.revision ≠ "" ∧
      (∃ digest, pins.digest = capture digest) ∧ "sha256:".toList.isPrefixOf pins.digest.toList = true ∧
      ∃ tree, W.tree (treeUrl repo pins.revision) = some tree ∧
        pinFiles W repo pins.revision (treeLines tree) = .ok pins.files := by
  unfold pinArtifacts at h
  split at h
  · cases h
  rename_i sha _
  simp only at h
  split at h
  · cases h
  rename_i hcommit
  split at h
  · cases h
  split at h
  · cases h
  split at h
  · cases h
  rename_i digest hdigest
  split at h
  · cases h
  rename_i hpinned
  split at h
  · cases h
  rename_i tree htree
  cases hfiles : pinFiles W repo (capture sha) (treeLines tree) with
  | error f =>
    rw [hfiles] at h
    cases h
  | ok files =>
    rw [hfiles] at h
    simp only [bind, Except.bind] at h
    split at h
    · cases h
    cases h
    refine ⟨rfl, rfl, ⟨sha, rfl⟩, fun h => hcommit (.inl h), ?_, by simpa using hpinned, tree, htree, hfiles⟩
    unfold vllmDigest at hdigest
    split at hdigest
    · obtain ⟨out, -, rfl⟩ := Option.map_eq_some_iff.mp hdigest
      exact ⟨out, rfl⟩
    · simp only [Option.bind_eq_bind, Option.bind_eq_some_iff] at hdigest
      obtain ⟨token, -, headers, -, hout⟩ := hdigest
      exact ⟨_, (Option.some.inj hout).symm⟩

end Pinned

/-! ## Mirrors that deliver -/

section Honest
variable {W : World} {d : Disk}

/-- No file is where another needs a directory. -/
def PrefixFree (es : List ModelFile) : Prop :=
  es.Pairwise fun e e' => ¬ e.dest <+: e'.dest ∧ ¬ e'.dest <+: e.dest

/-- Nothing is in the way of the files that are still to come. -/
def Clear (d : Disk) (es : List ModelFile) : Prop :=
  ∀ e ∈ es, d.node e.dest = none ∧ ∀ q, q <+: e.dest → d.isFile q = false

theorem ModelFile.dest_ne_nil (e : ModelFile) : e.dest ≠ [] := by simp [ModelFile.dest, modelDir]

theorem node_of_not_isFile {p : Path} (h : d.isFile p = false) : d.node p = none ∨ d.node p = some .dir := by
  unfold Disk.isFile at h
  rcases hp : d.node p with _ | _ | i
  · exact .inl rfl
  · exact .inr rfl
  · simp [hp] at h

theorem checkFetched_honest {e : ModelFile} {bytes : Bytes} (hsha : W.sha256sum bytes = e.want) :
    (checkFetched W e (d.create e.dest bytes)).fatal = none ∧
      (checkFetched W e (d.create e.dest bytes)).disk = d.create e.dest bytes := by
  simp [checkFetched, Disk.create_read_self, hsha]

/-- A file whose way is clear is fetched when its mirror delivers it; besides it only
directories are new. -/
theorem fetchFile_honest {i : Nat} {e : ModelFile} {bytes : Bytes} (hfree : d.node e.dest = none)
    (hway : ∀ q, q <+: e.dest → d.isFile q = false) (hwant : e.want ≠ "")
    (hdl : W.download i (capture (jqRaw e.url)) = .delivered bytes) (hsha : W.sha256sum bytes = e.want) :
    (fetchFile W i e d).fatal = none ∧ ∀ q, q ≠ e.dest →
      (fetchFile W i e d).disk.node q = if q <+: e.dest.dropLast ∧ d.node q = none then some .dir else d.node q := by
  obtain ⟨hok, hnode⟩ : (d.mkdirP e.dest.dropLast).1 = true ∧ ∀ q, (d.mkdirP e.dest.dropLast).2.node q =
      if q <+: e.dest.dropLast ∧ d.node q = none then some .dir else d.node q := by
    have hinits : ∀ p ∈ e.dest.dropLast.inits, d.isFile p = false := fun p hp =>
      hway p (((List.mem_inits _ _).mp hp).trans (List.dropLast_prefix _))
    obtain ⟨hok, hnode⟩ := Disk.mkdirAll_ok hinits
    refine ⟨hok, fun q => ?_⟩
    rw [Disk.mkdirP, hnode q]
    simp only [List.mem_inits]
  unfold fetchFile
  rw [if_neg hwant, Disk.files_mkdirP]
  generalize d.mkdirP e.dest.dropLast = made at hok hnode ⊢
  obtain ⟨ok, d₁⟩ := made
  cases hok
  have hfree₁ : d₁.node e.dest = none := by
    rw [hnode, if_neg fun h => not_prefix_dropLast e.dest_ne_nil h.1, hfree]
  have hparent : d₁.node e.dest.dropLast = some .dir := by
    rw [hnode]
    rcases node_of_not_isFile (hway _ (List.dropLast_prefix _)) with hnone | hdir
    · rw [if_pos ⟨List.prefix_refl _, hnone⟩]
    · simp [hdir]
  have hmissing : verified W d₁ e.dest e.want = false := by
    simp [verified, Disk.read, hfree₁]
  have hwritten : curl (.delivered bytes) d₁ e.dest = (true, d₁.create e.dest bytes) := by
    simp [curl, Disk.write, hfree₁, hparent]
  obtain ⟨hdone, hdisk⟩ := checkFetched_honest (d := d₁) hsha
  simp only [hmissing, Bool.false_eq_true, if_false, hdl, hwritten]
  refine ⟨hdone, fun q hq => ?_⟩
  rw [hdisk]
  simp only [Disk.create, Function.update_of_ne hq]
  exact hnode q

/-- Fetching one file leaves the way of the others clear. -/
theorem Clear.after {i : Nat} {e : ModelFile} {es : List ModelFile}
    (hfree : ∀ e' ∈ es, ¬ e.dest <+: e'.dest ∧ ¬ e'.dest <+: e.dest) (h : Clear d es)
    (hnode : ∀ q, q ≠ e.dest → (fetchFile W i e d).disk.node q =
      if q <+: e.dest.dropLast ∧ d.node q = none then some .dir else d.node q) :
    Clear (fetchFile W i e d).disk es := by
  intro e' he'
  obtain ⟨hnot, hnot'⟩ := hfree e' he'
  obtain ⟨hnone, hway⟩ := h e' he'
  constructor
  · have hne : e'.dest ≠ e.dest := by
      intro heq
      exact hnot (heq ▸ List.prefix_refl _)
    rw [hnode _ hne, if_neg fun hp => hnot' (hp.1.trans (List.dropLast_prefix _)), hnone]
  · intro q hq
    have hne : q ≠ e.dest := by
      rintro rfl
      exact hnot hq
    rw [← Bool.not_eq_true, Disk.isFile_iff]
    rintro ⟨j, hj⟩
    rw [hnode q hne] at hj
    split at hj
    · cases hj
    · have hfile := Disk.isFile_iff.mpr ⟨j, hj⟩
      rw [hway q hq] at hfile
      cases hfile

/-- The `i`th download delivers bytes with the pinned hash, for every file of the loop. -/
def Delivers (W : World) (i : Nat) (es : List ModelFile) : Prop :=
  ∀ k e, es[k]? = some e → e.want ≠ "" ∧
    ∃ bytes, W.download (i + k) (capture (jqRaw e.url)) = .delivered bytes ∧ W.sha256sum bytes = e.want

theorem fetchAll_honest {i : Nat} {es : List ModelFile} (hfree : PrefixFree es) (hclear : Clear d es)
    (hhonest : Delivers W i es) : (fetchAll W i es d).fatal = none := by
  induction es generalizing i d with
  | nil => rfl
  | cons e es ih =>
    obtain ⟨hfirst, hrest⟩ := List.pairwise_cons.mp hfree
    obtain ⟨hnone, hway⟩ := hclear e List.mem_cons_self
    obtain ⟨hwant, bytes, hdl, hsha⟩ := hhonest 0 e rfl
    rw [Nat.add_zero] at hdl
    obtain ⟨hok, hnode⟩ := fetchFile_honest hnone hway hwant hdl hsha
    rw [fetchAll_of_ok hok]
    apply ih hrest
    · exact Clear.after hfirst (fun e' he' => hclear e' (List.mem_cons_of_mem _ he')) hnode
    · intro k e' he'
      have hnext := hhonest (k + 1) e' he'
      rwa [← Nat.add_assoc, Nat.add_right_comm] at hnext

end Honest

/-! ## From the pins to the disk -/

/-- The image was built with these pins. -/
structure Carries (A : PinnedArtifacts) (pins : Pins) : Prop where
  image : A.image = some pins.image
  digest : A.digest = some pins.digest
  repo : A.repo = some pins.repo
  revision : A.revision = some pins.revision
  files : A.files.map (fun m => (m.path.text, m.url, m.sha256)) =
    pins.files.map fun e => (e.path, some e.url, some e.sha256)

theorem forall₂_mem_right {α β : Type} {R : α → β → Prop} {l : List α} {l' : List β} (h : List.Forall₂ R l l') {b : β}
    (hb : b ∈ l') : ∃ a ∈ l, R a b := by
  induction h with
  | nil => cases hb
  | cons hr _ ih =>
    rcases List.mem_cons.mp hb with rfl | hb
    · exact ⟨_, List.mem_cons_self, hr⟩
    · obtain ⟨a, ha, hrel⟩ := ih hb
      exact ⟨a, List.mem_cons_of_mem _ ha, hrel⟩

section Fetched
variable {PW : PinWorld} {repo : String} {revision vllmTag : Option String} {pins : Pins} {tree : List TreeEntry}
  {A : PinnedArtifacts} {W : World}

/-- The listed files that are not furniture. -/
def kept (tree : List TreeEntry) : List (String × String) := (listed tree).filter fun f => !excluded f.1

theorem pins_of_tree (hpin : pinArtifacts PW repo revision vllmTag = .ok pins)
    (htree : PW.tree (treeUrl repo pins.revision) = some tree) (hread : Readable tree) :
    List.Forall₂ (PinOf PW repo pins.revision) (kept tree) pins.files := by
  obtain ⟨-, -, -, -, -, -, tree', htree', hfiles⟩ := pinArtifacts_ok hpin
  rw [htree] at htree'
  cases htree'
  have hpinned := pinFiles_ok hfiles
  rwa [treeLines_fields hread] at hpinned

theorem paths_of_pins {commit : String} {fs : List (String × String)} {es : List PinnedEntry}
    (h : List.Forall₂ (PinOf PW repo commit) fs es) : es.map (·.path) = fs.map (·.1) := by
  induction h with
  | nil => rfl
  | cons hpin _ ih => rw [List.map_cons, List.map_cons, ih, hpin.path]

theorem Carries.paths (hA : Carries A pins) : A.files.map (fun m => m.path.text) = pins.files.map (·.path) := by
  have h := congrArg (List.map fun x => x.1) hA.files
  simpa only [List.map_map, Function.comp_def] using h

theorem Carries.entry (hA : Carries A pins) {k : Nat} {m : ModelFile} (hm : A.files[k]? = some m) :
    ∃ e, pins.files[k]? = some e ∧ m.path.text = e.path ∧ m.url = some e.url ∧ m.sha256 = some e.sha256 := by
  have h := congrArg (fun l => l[k]?) hA.files
  simp only [List.getElem?_map, hm, Option.map_some] at h
  obtain ⟨e, he, heq⟩ := Option.map_eq_some_iff.mp h.symm
  simp only [Prod.mk.injEq] at heq
  exact ⟨e, he, heq.1.symm, heq.2.1.symm, heq.2.2.symm⟩

theorem Carries.prefixFree (hA : Carries A pins) (hpins : List.Forall₂ (PinOf PW repo pins.revision) (kept tree) pins.files)
    (hfree : (listed tree).Pairwise fun f f' =>
      ¬ components f.1 <+: components f'.1 ∧ ¬ components f'.1 <+: components f.1) : PrefixFree A.files := by
  have hkept : (kept tree).Pairwise fun f f' =>
      ¬ components f.1 <+: components f'.1 ∧ ¬ components f'.1 <+: components f.1 :=
    hfree.sublist List.filter_sublist
  have hpaths : A.files.map (fun m => m.path.text) = (kept tree).map (·.1) := hA.paths.trans (paths_of_pins hpins)
  have htexts : (A.files.map fun m => m.path.text).Pairwise fun p p' =>
      ¬ components p <+: components p' ∧ ¬ components p' <+: components p := by
    rw [hpaths, List.pairwise_map]
    exact hkept
  rw [List.pairwise_map] at htexts
  refine htexts.imp ?_
  rintro m m' ⟨h, h'⟩
  simp only [ModelFile.dest, List.prefix_append_right_inj]
  exact ⟨h, h'⟩

theorem clear_made {d : Disk} (hd : ∀ p i, d.node p ≠ some (.file i)) (hmodel : ∀ p, modelDir <+: p → d.node p = none)
    (es : List ModelFile) : Clear (d.mkdirP modelDir).2 es := by
  have hfile : ∀ q, (d.mkdirP modelDir).2.isFile q = false := by
    intro q
    rw [← Bool.not_eq_true, Disk.isFile_iff]
    rintro ⟨i, hi⟩
    exact hd q i ((d.mkdirAll_files modelDir.inits q i).mp hi)
  have hnofile : ∀ p ∈ modelDir.inits, d.isFile p = false := by
    intro p _
    rw [← Bool.not_eq_true, Disk.isFile_iff]
    rintro ⟨i, hi⟩
    exact hd p i hi
  intro e _
  refine ⟨?_, fun q _ => hfile q⟩
  have hnode := (Disk.mkdirAll_ok hnofile).2 e.dest
  have hfree : d.node e.dest = none := hmodel _ (List.prefix_append _ _)
  rw [Disk.mkdirP, hnode, if_neg, hfree]
  rintro ⟨hmem, -⟩
  have hlen := ((List.mem_inits _ _).mp hmem).length_le
  have hpos : 0 < (components e.path.text).length := by
    rw [components, List.length_map, List.length_pos_iff]
    exact List.splitOn_ne_nil _ _
  simp only [ModelFile.dest, List.length_append] at hlen
  omega

theorem fetchArtifacts_honest {d : Disk} (hd : ∀ p i, d.node p ≠ some (.file i))
    (hmodel : ∀ p, modelDir <+: p → d.node p = none)
    (hdigest : "sha256:".toList.isPrefixOf (capture (jqRaw A.digest)).toList = true) (hfiles : A.files ≠ [])
    (hrepo : capture (jqRaw A.repo) ≠ "") (hrevision : capture (jqRaw A.revision) ≠ "")
    (hpull : W.podmanPull (capture (jqRaw A.image) ++ "@" ++ capture (jqRaw A.digest)) = true)
    (hfree : PrefixFree A.files) (hhonest : Delivers W 0 A.files) : (fetchArtifacts W A d).fatal = none := by
  have hne : capture (jqRaw A.digest) ≠ "" := by
    intro h
    rw [h] at hdigest
    revert hdigest
    decide
  have hok : (d.mkdirP modelDir).1 = true := by
    refine (Disk.mkdirAll_ok fun p _ => ?_).1
    rw [← Bool.not_eq_true, Disk.isFile_iff]
    rintro ⟨i, hi⟩
    exact hd p i hi
  have hclear := clear_made hd hmodel A.files
  unfold fetchArtifacts
  simp only
  rw [if_neg (not_not.mpr ⟨hne, hdigest⟩), if_neg (not_not.mpr (List.length_pos_iff.mpr hfiles)),
    if_neg (not_or.mpr ⟨hrepo, hrevision⟩), Disk.files_mkdirP]
  generalize d.mkdirP modelDir = made at hok hclear ⊢
  obtain ⟨ok, d₁⟩ := made
  cases hok
  simp only [hpull, Bool.not_true, Bool.false_eq_true, if_false]
  exact fetchAll_honest hfree hclear hhonest

end Fetched

section EndToEnd
variable {PW : PinWorld} {repo : String} {revision vllmTag : Option String} {pins : Pins} {tree : List TreeEntry}
  {A : PinnedArtifacts} {W : World}

theorem fetched_only {d : Disk} (hd : ∀ p i, d.node p ≠ some (.file i)) (hok : (fetchArtifacts W A d).fatal = none)
    {q : Path} {bytes : Bytes} (hq : (fetchArtifacts W A d).disk.read q = some bytes) : ∃ e ∈ A.files, q = e.dest := by
  rcases fetchArtifacts_cases W A d with ⟨f, d', hstop⟩ | ⟨-, -, hloop⟩
  · rw [hstop] at hok
    cases hok
  rw [hloop] at hok hq
  by_contra hno
  have hsep : ∀ e ∈ A.files, ¬ Files.Same (Files.mkdirP d modelDir).2 e.dest q := by
    rintro e he (heq | hs)
    · exact hno ⟨e, he, heq.symm⟩
    · obtain ⟨i, hi, -⟩ := (d.mkdirP_sameFile _ _ _).mp hs
      exact hd _ i hi
  have hread : (d.mkdirP modelDir).2.read q = some bytes := (fetchAll_read_other hok hsep).symm.trans hq
  rw [d.mkdirP_read] at hread
  obtain ⟨i, hi, -⟩ := Disk.read_eq_some.mp hread
  exact hd q i hi

theorem PrefixFree.distinct {es : List ModelFile} (h : PrefixFree es) : (es.map fun e => e.path.text).Nodup := by
  refine List.pairwise_map.mpr (List.Pairwise.imp ?_ h)
  intro e e' hne heq
  apply hne.1
  rw [ModelFile.dest, ModelFile.dest, heq]

theorem want_of_entry {m : ModelFile} {sha : String} (h : m.sha256 = some sha) : m.want = capture sha := by
  rw [ModelFile.want, jqRaw, h, Option.getD_some]

end EndToEnd

namespace Pinning

def shaA : String := TwoFiles.sha256sum [65]

def shaB : String := TwoFiles.sha256sum [66]

def url (path : String) : String := resolveUrl "org/model" "c0ffee" path

/-- One LFS file, one small file, furniture and a directory. -/
def tree : List TreeEntry := [.file "README.md" none, .other, .file "a" (some shaA), .file "b" none]

def pinWorld : PinWorld where
  curlJq _ filter := if filter = ".sha" then some "c0ffee\n" else if filter = ".gated" then some "false\n" else none
  skopeo := some fun _ => some "sha256:00\n"
  curlHead _ _ := none
  tree _ := some tree
  download u := if u = url "b" then .delivered [66] else .failed none
  sha256sum := TwoFiles.sha256sum
  total := true
  edit := true

def pins : Pins := ⟨vllmImage, "sha256:00", "org/model", "c0ffee", [⟨"a", url "a", shaA⟩, ⟨"b", url "b", shaB⟩]⟩

def artifacts : PinnedArtifacts :=
  ⟨some vllmImage, some "sha256:00", some "org/model", some "c0ffee",
    [⟨TwoFiles.a.path, some (url "a"), some shaA⟩, ⟨TwoFiles.b.path, some (url "b"), some shaB⟩]⟩

def mirrors : World where
  podmanPull _ := true
  download _ u := if u = url "a" then .delivered [65] else .delivered [66]
  sha256sum := TwoFiles.sha256sum

theorem pin_eq : pinArtifacts pinWorld "org/model" none none = .ok pins := by
  have h : (pinArtifacts pinWorld "org/model" none none).toOption = some pins := by decide +kernel
  cases hp : pinArtifacts pinWorld "org/model" none none with
  | error f =>
    rw [hp] at h
    cases h
  | ok p =>
    rw [hp] at h
    cases h
    rfl

theorem listed_eq : listed tree = [("README.md", ""), ("a", shaA), ("b", "")] := rfl

theorem readable : Readable tree where
  whole := by decide
  plain := by
    intro f hf
    have h : ∀ f ∈ listed tree, f.1 ≠ "" ∧ (∀ s ∈ [f.1, f.2], s.toList.all fun c =>
        c != '\\' && c != '\t' && c != '\n' && c != '\r' && c != Char.ofNat 0) := by decide +kernel
    obtain ⟨hne, hall⟩ := h f hf
    have hplain : ∀ s ∈ [f.1, f.2], Plain s := by
      intro s hs c hc
      have hc' := List.all_eq_true.mp (hall s hs) c hc
      simpa [and_assoc] using hc'
    exact ⟨hne, hplain _ (by simp), hplain _ (by simp)⟩

theorem carries : Carries artifacts pins := ⟨rfl, rfl, rfl, rfl, rfl⟩

theorem sha_ne (bytes : Bytes) : mirrors.sha256sum bytes ≠ "" := by
  simp only [mirrors, TwoFiles.sha256sum]
  split
  · decide
  · split <;> decide

end Pinning

end IronInstance
