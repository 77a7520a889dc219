import IronInstance.Artifacts

/-!
# iron-fetch-manifest

The script that turns the launch parameter into the cohort manifest on the root disk.
Every metadata endpoint may answer anything or nothing at each attempt; `jq`,
`sha256sum` and the network are opaque, and `install` may break off at any point.
-/

namespace IronInstance
open FileSystem
set_option autoImplicit false

inductive MetadataEndpoint where
  | ec2
  | gce
  | openstack
  deriving DecidableEq

/-- How far `install` got: all the way, or until before the target was touched, until
the old file was gone, until part of the new one was written. -/
inductive Install where
  | installed
  | untouched
  | removed
  | broken (written : Bytes)

/-- An answer of `none` is a non-zero exit. -/
structure LaunchWorld where
  metadata : Nat → MetadataEndpoint → Option String
  jq : String → String → Option String
  mktemp : Option Path
  download : String → Download
  sha256sum : Bytes → String
  install : Install

structure ScriptEnd where
  disk : Disk
  fatal : Option Fatal

/-- The builtin takes a word of the letters `n`, `e`, `E` after a dash for options. -/
def echo (word : String) : String :=
  match word.toList with
  | '-' :: c :: cs =>
    if (c :: cs).all fun x => x == 'n' || x == 'e' || x == 'E' then
      if (c :: cs).contains 'n' then "" else "\n"
    else word ++ "\n"
  | _ => word ++ "\n"

/-- `[[ "$want" =~ ^[0-9a-f]{64}$ ]]` -/
def isSha256Hex (s : String) : Bool :=
  s.toList.length == 64 && s.toList.all fun c => ('0' ≤ c && c ≤ '9') || ('a' ≤ c && c ≤ 'f')

/-- `[[ "$url" == https://* ]]` -/
def isHttps (url : String) : Bool := "https://".toList.isPrefixOf url.toList

def mktemp (name : Option Path) (d : Disk) : Option (Path × Disk) := do
  let p ← name
  if d.node p = none ∧ d.node p.dropLast = some .dir then some (p, d.create p []) else none

/-- `install` removes what is at the target and copies to a new file there. -/
def replaceFile (how : Install) (d : Disk) (tmp : Path) (bytes : Bytes) (target : Path) : Bool × Disk :=
  if d.node target = some .dir then (false, d)
  else if d.node target = d.node tmp then (false, d) -- "are the same file"
  else
    match how with
    | .installed => (true, (d.unlink target).create target bytes)
    | .untouched => (false, d)
    | .removed => (false, d.unlink target)
    | .broken written => (false, (d.unlink target).create target written)

/-- `install -D "$tmp" "$OUT"`; into `$OUT` if that is a directory. -/
def installFile (how : Install) (d : Disk) (tmp : Path) (bytes : Bytes) (out : Path) : Bool × Disk :=
  if d.node out = some .dir then replaceFile how d tmp bytes (out ++ tmp.getLast?.toList)
  else
    match d.mkdirP out.dropLast with
    | (false, d) => (false, d)
    | (true, d) => replaceFile how d tmp bytes out

section Script
variable (W : LaunchWorld)

def metadataEndpoints : List MetadataEndpoint := [.ec2, .gce, .openstack]

def fetchUserData (attempt : Nat) : Option String :=
  metadataEndpoints.findSome? fun e => (W.metadata attempt e).map fun body => echo (capture body)

/-- The `for attempt` loop: what `user_data` holds after it. -/
def awaitUserData : List Nat → String
  | [] => ""
  | attempt :: rest =>
    match fetchUserData W attempt with
    | some out => capture out
    | none => awaitUserData rest

def userData : String := awaitUserData W (List.range' 1 30)

/-- From the download to the end of the script. -/
def fetchInto (out tmp : Path) (url want : String) (d : Disk) : ScriptEnd :=
  match curl (W.download url) d tmp with
  | (false, d) => ⟨d, some (.die "manifest fetch failed")⟩
  | (true, d) =>
    match d.read tmp with
    | none => ⟨d, some .errexit⟩
    | some bytes =>
      if W.sha256sum bytes ≠ want then
        ⟨d, some (.die ("manifest hash mismatch: got " ++ W.sha256sum bytes ++ " want " ++ want ++
          " -- refusing to start"))⟩
      else
        match installFile W.install d tmp bytes out with
        | (false, d) => ⟨d, some .errexit⟩
        | (true, d) => ⟨d, none⟩

def fetchManifest (out : Path) (d : Disk) : ScriptEnd :=
  let userData := userData W
  if userData = "" then ⟨d, some (.die "no metadata endpoint answered with user data")⟩
  else
    match W.jq ".manifest_url" (userData ++ "\n") with
    | none => ⟨d, some (.die "user data has no manifest_url")⟩
    | some url =>
      match W.jq ".manifest_sha256" (userData ++ "\n") with
      | none => ⟨d, some (.die "user data has no manifest_sha256")⟩
      | some want =>
        if !isHttps (capture url) then ⟨d, some (.die "manifest_url is not https")⟩
        else if !isSha256Hex (capture want) then
          ⟨d, some (.die "manifest_sha256 is not 64 lowercase hex chars")⟩
        else
          match mktemp W.mktemp d with
          | none => ⟨d, some .errexit⟩
          | some (tmp, d) =>
            -- the EXIT trap
            let o := fetchInto W out tmp (capture url) (capture want) d
            ⟨o.disk.unlink tmp, o.fatal⟩

end Script

/-! ## The user data -/

theorem capture_toList (out : String) :
    (capture out).toList = (out.toList.filter (· ≠ Char.ofNat 0)).rdropWhile (· == '\n') := by
  simp [capture]

theorem capture_filter (out : String) :
    (capture out).toList.filter (· ≠ Char.ofNat 0) = (capture out).toList := by
  rw [List.filter_eq_self]
  intro c hc
  rw [capture_toList] at hc
  exact (List.mem_filter.mp ((List.rdropWhile_prefix _ _).subset hc)).2

theorem capture_capture (out : String) : capture (capture out) = capture out := by
  apply String.toList_inj.mp
  rw [capture_toList, capture_filter, capture_toList, List.rdropWhile_idempotent]

theorem capture_line (out : String) : capture (capture out ++ "\n") = capture out := by
  apply String.toList_inj.mp
  have hnewline : "\n".toList.filter (· ≠ Char.ofNat 0) = ['\n'] := by decide
  rw [capture_toList, String.toList_append, List.filter_append, capture_filter, hnewline,
    List.rdropWhile_concat_pos _ _ _ (by decide), capture_toList, List.rdropWhile_idempotent]

/-- The answer comes through the two shells unchanged, or not at all. -/
theorem capture_echo_capture {body : String} (h : capture (echo (capture body)) ≠ "") :
    capture (echo (capture body)) = capture body := by
  unfold echo at h ⊢
  split at h
  · rename_i c cs hbody
    split at h
    · split at h
      · exact absurd (by decide) h
      · exact absurd (by decide) h
    · rename_i hflags
      simp only [hflags]
      exact capture_line body
  · exact capture_line body

/-- The first endpoint that answers, in the order in which the script asks. -/
structure FirstAnswer (W : LaunchWorld) (attempt : Nat) (e : MetadataEndpoint) (body : String) : Prop where
  attempts : 1 ≤ attempt ∧ attempt ≤ 30
  answered : W.metadata attempt e = some body
  earlier : ∀ n, 1 ≤ n → n < attempt → ∀ e', W.metadata n e' = none
  before : ∃ pre post, metadataEndpoints = pre ++ e :: post ∧ ∀ e' ∈ pre, W.metadata attempt e' = none

section Answers
variable {W : LaunchWorld}

theorem fetchUserData_none {attempt : Nat} (h : fetchUserData W attempt = none) (e : MetadataEndpoint) :
    W.metadata attempt e = none := by
  have hmem : e ∈ metadataEndpoints := by cases e <;> decide
  have hnone := List.findSome?_eq_none_iff.mp h e hmem
  simpa using hnone

theorem fetchUserData_some {attempt : Nat} {out : String} (h : fetchUserData W attempt = some out) :
    ∃ e body, W.metadata attempt e = some body ∧ out = echo (capture body) ∧
      ∃ pre post, metadataEndpoints = pre ++ e :: post ∧ ∀ e' ∈ pre, W.metadata attempt e' = none := by
  obtain ⟨pre, e, post, hsplit, hanswer, hpre⟩ := List.findSome?_eq_some_iff.mp h
  obtain ⟨body, hbody, rfl⟩ := Option.map_eq_some_iff.mp hanswer
  refine ⟨e, body, hbody, rfl, pre, post, hsplit, fun e' he' => ?_⟩
  have hnone := hpre e' he'
  simpa using hnone

theorem awaitUserData_ne {first len : Nat} (h : awaitUserData W (List.range' first len) ≠ "") :
    ∃ attempt e body, first ≤ attempt ∧ attempt < first + len ∧ W.metadata attempt e = some body ∧
      (∀ n, first ≤ n → n < attempt → ∀ e', W.metadata n e' = none) ∧
      (∃ pre post, metadataEndpoints = pre ++ e :: post ∧ ∀ e' ∈ pre, W.metadata attempt e' = none) ∧
      awaitUserData W (List.range' first len) = capture body := by
  induction len generalizing first with
  | zero => exact absurd rfl h
  | succ len ih =>
    rw [List.range'_succ, awaitUserData] at h ⊢
    cases hfetch : fetchUserData W first with
    | some out =>
      rw [hfetch] at h
      obtain ⟨e, body, hbody, rfl, hbefore⟩ := fetchUserData_some hfetch
      refine ⟨first, e, body, Nat.le_refl _, by omega, hbody, ?_, hbefore, capture_echo_capture h⟩
      intro n hfirst hlt
      omega
    | none =>
      rw [hfetch] at h
      obtain ⟨attempt, e, body, hle, hlt, hbody, hearlier, hbefore, hdata⟩ := ih h
      refine ⟨attempt, e, body, by omega, by omega, hbody, ?_, hbefore, hdata⟩
      intro n hfirst hn e'
      rcases Nat.eq_or_lt_of_le hfirst with rfl | hn'
      · exact fetchUserData_none hfetch e'
      · exact hearlier n hn' hn e'

theorem userData_ne (h : userData W ≠ "") :
    ∃ attempt e body, FirstAnswer W attempt e body ∧ userData W = capture body := by
  obtain ⟨attempt, e, body, hle, hlt, hbody, hearlier, hbefore, hdata⟩ := awaitUserData_ne h
  exact ⟨attempt, e, body, ⟨⟨hle, by omega⟩, hbody, hearlier, hbefore⟩, hdata⟩

end Answers

/-! ## The disk -/

theorem mktemp_some {name : Option Path} {d d' : Disk} {tmp : Path} (h : mktemp name d = some (tmp, d')) :
    name = some tmp ∧ d.node tmp = none ∧ d' = d.create tmp [] := by
  cases name with
  | none => cases h
  | some p =>
    by_cases hfree : d.node p = none ∧ d.node p.dropLast = some .dir
    · simp only [mktemp, Option.bind_eq_bind, Option.bind_some, if_pos hfree, Option.some.injEq, Prod.mk.injEq] at h
      obtain ⟨rfl, rfl⟩ := h
      exact ⟨rfl, hfree.1, rfl⟩
    · simp [mktemp, hfree] at h

theorem curl_node (dl : Download) {d : Disk} {p : Path} {i : Nat} (h : d.node p = some (.file i)) :
    (curl dl d p).2.node = d.node := by
  rcases dl with (_ | written) | bytes
  · rfl
  · simp [curl, Disk.write, h, Disk.setContent]
  · simp [curl, Disk.write, h, Disk.setContent]

/-- The same entry with the same bytes. -/
structure Unchanged (d d' : Disk) (q : Path) : Prop where
  node : d'.node q = d.node q
  read : d'.read q = d.read q

theorem Unchanged.trans {d d' d'' : Disk} {q : Path} (h : Unchanged d d' q) (h' : Unchanged d' d'' q) :
    Unchanged d d'' q :=
  ⟨h'.node.trans h.node, h'.read.trans h.read⟩

theorem unchanged_create (d : Disk) {p q : Path} (bytes : Bytes) (h : q ≠ p) : Unchanged d (d.create p bytes) q :=
  ⟨by simp [Disk.create, h], d.create_read_of_ne bytes h⟩

theorem unchanged_unlink (d : Disk) {p q : Path} (h : q ≠ p) : Unchanged d (d.unlink p) q :=
  ⟨by simp [Disk.unlink, h], d.unlink_read_of_ne h⟩

theorem replaceFile_frame (how : Install) (d : Disk) (tmp : Path) (bytes : Bytes) {target q : Path} (hq : q ≠ target) :
    Unchanged d (replaceFile how d tmp bytes target).2 q := by
  unfold replaceFile
  split
  · exact ⟨rfl, rfl⟩
  split
  · exact ⟨rfl, rfl⟩
  cases how with
  | installed => exact (unchanged_unlink d hq).trans (unchanged_create _ _ hq)
  | untouched => exact ⟨rfl, rfl⟩
  | removed => exact unchanged_unlink d hq
  | broken written => exact (unchanged_unlink d hq).trans (unchanged_create _ _ hq)

theorem replaceFile_ok {how : Install} {d d' : Disk} {tmp target : Path} {bytes : Bytes}
    (h : replaceFile how d tmp bytes target = (true, d')) :
    d.node target ≠ some .dir ∧ target ≠ tmp ∧ d'.read target = some bytes := by
  unfold replaceFile at h
  split at h
  · cases h
  rename_i hdir
  split at h
  · cases h
  rename_i hsame
  cases how with
  | installed =>
    cases h
    refine ⟨hdir, ?_, Disk.create_read_self _ _ _⟩
    rintro rfl
    exact hsame rfl
  | untouched => cases h
  | removed => cases h
  | broken written => cases h

/-- Where `install -D` puts the file: below the output path if that is a directory. -/
def installTarget (d : Disk) (tmp out : Path) : Path :=
  if d.node out = some .dir then out ++ tmp.getLast?.toList else out

/-- Besides the target only missing directories above the output path come into being. -/
def InstallFrame (d d' : Disk) (tmp out q : Path) : Prop :=
  Unchanged d d' q ∨ (q <+: out.dropLast ∧ d.node q = none ∧ d'.node q = some .dir) ∨ q = installTarget d tmp out

theorem installFile_frame (how : Install) (d : Disk) (tmp : Path) (bytes : Bytes) (out q : Path) :
    InstallFrame d (installFile how d tmp bytes out).2 tmp out q := by
  by_cases hq : q = installTarget d tmp out
  · exact .inr (.inr hq)
  unfold installFile
  unfold installTarget at hq
  split
  · rename_i hdir
    rw [if_pos hdir] at hq
    exact .inl (replaceFile_frame how d tmp bytes hq)
  rename_i hfile
  rw [if_neg hfile] at hq
  have hmade := d.mkdirAll_node out.dropLast.inits q
  have hread := d.mkdirP_read out.dropLast q
  rw [Disk.mkdirP] at hread ⊢
  generalize d.mkdirAll out.dropLast.inits = made at hmade hread ⊢
  have hframe : ∀ d' : Disk, Unchanged made.2 d' q →
      Unchanged d d' q ∨ (q <+: out.dropLast ∧ d.node q = none ∧ d'.node q = some .dir) := by
    intro d' hsame
    rcases hmade with hold | ⟨hmem, hnone, hdir⟩
    · exact .inl ⟨hsame.node.trans hold, hsame.read.trans hread⟩
    · exact .inr ⟨(List.mem_inits _ _).mp hmem, hnone, hsame.node.trans hdir⟩
  have hdone : ∀ d' : Disk, Unchanged made.2 d' q → InstallFrame d d' tmp out q :=
    fun d' hsame => (hframe d' hsame).imp_right .inl
  rcases made with ⟨_ | _, d₁⟩
  · exact hdone d₁ ⟨rfl, rfl⟩
  · exact hdone _ (replaceFile_frame how d₁ tmp bytes hq)

theorem installFile_ok {how : Install} {d d' : Disk} {tmp out : Path} {bytes : Bytes}
    (h : installFile how d tmp bytes out = (true, d')) :
    installTarget d tmp out ≠ tmp ∧ d'.read (installTarget d tmp out) = some bytes ∧
      (d.node out = some .dir → d'.read out = none) := by
  unfold installFile at h
  unfold installTarget
  split at h
  · rename_i hdir
    rw [if_pos hdir]
    obtain ⟨hnode, hne, hread⟩ := replaceFile_ok h
    refine ⟨hne, hread, fun _ => ?_⟩
    -- the file goes below `out`, which stays a directory
    have hbelow : out ≠ out ++ tmp.getLast?.toList := by
      intro heq
      rw [← heq] at hnode
      exact hnode hdir
    have hframe := (replaceFile_frame how d tmp bytes hbelow).read
    rw [h] at hframe
    rw [hframe, Disk.read, hdir]
  · rename_i hfile
    rw [if_neg hfile]
    generalize d.mkdirP out.dropLast = made at h
    rcases made with ⟨_ | _, d₁⟩
    · cases h
    · obtain ⟨-, hne, hread⟩ := replaceFile_ok h
      exact ⟨hne, hread, fun hdir => absurd hdir hfile⟩

/-! ## From the download on -/

/-- How the script ends once it has its temporary file, on a disk `d` where `tmp` is
that file. -/
inductive IntoCase (W : LaunchWorld) (out tmp : Path) (url want : String) (d : Disk) : ScriptEnd → Prop where
  | died {d' : Disk} (msg : String) (hframe : ∀ q, q ≠ tmp → Unchanged d d' q) :
      IntoCase W out tmp url want d ⟨d', some (.die msg)⟩
  | broke {d' : Disk} (hframe : ∀ q, q ≠ tmp → InstallFrame d d' tmp out q) :
      IntoCase W out tmp url want d ⟨d', some .errexit⟩
  | installed {d' : Disk} {bytes : Bytes} (hdelivered : W.download url = .delivered bytes)
      (hsha : W.sha256sum bytes = want) (hframe : ∀ q, q ≠ tmp → InstallFrame d d' tmp out q)
      (hne : installTarget d tmp out ≠ tmp) (hread : d'.read (installTarget d tmp out) = some bytes)
      (hdir : d.node out = some .dir → d'.read out = none) : IntoCase W out tmp url want d ⟨d', none⟩

theorem curl_tmp (dl : Download) (d : Disk) {tmp q : Path} (hq : q ≠ tmp) :
    Unchanged (d.create tmp []) (curl dl (d.create tmp []) tmp).2 q := by
  have hnode : (d.create tmp []).node tmp = some (.file d.next) := by simp [Disk.create]
  have hsep : ¬ Files.Same (d.create tmp []) tmp q := by
    rintro (heq | hs)
    · exact hq heq.symm
    · exact d.create_not_sameFile [] hq hs
  exact ⟨congrFun (curl_node dl hnode) q, (curl_affects dl (d.create tmp []) tmp).read q hsep⟩

theorem installTarget_congr {d d' : Disk} {tmp out : Path} (h : d'.node out = d.node out) :
    installTarget d' tmp out = installTarget d tmp out := by
  unfold installTarget
  rw [h]

theorem fetchInto_cases (W : LaunchWorld) (out tmp : Path) (url want : String) (d : Disk) :
    IntoCase W out tmp url want (d.create tmp []) (fetchInto W out tmp url want (d.create tmp [])) := by
  have hnode : (d.create tmp []).node tmp = some (.file d.next) := by simp [Disk.create]
  have hsame := curl_node (W.download url) hnode
  have hcurl : ∀ q, q ≠ tmp → Unchanged (d.create tmp []) (curl (W.download url) (d.create tmp []) tmp).2 q :=
    fun q hq => curl_tmp (W.download url) d hq
  unfold fetchInto
  generalize hgot : curl (W.download url) (d.create tmp []) tmp = got at hsame hcurl ⊢
  rcases got with ⟨_ | _, d₁⟩
  · exact .died _ hcurl
  obtain ⟨bytes, hdelivered, hread⟩ := curl_ok hgot
  rw [Disk.files_read] at hread
  simp only [hread]
  split
  · exact .died _ hcurl
  rename_i hsha
  have hout : d₁.node out = (d.create tmp []).node out := congrFun hsame out
  have hinstall : ∀ q, q ≠ tmp →
      InstallFrame (d.create tmp []) (installFile W.install d₁ tmp bytes out).2 tmp out q := by
    intro q hq
    have hstart := hcurl q hq
    rcases installFile_frame W.install d₁ tmp bytes out q with hkept | ⟨hpre, hnone, hdir⟩ | heq
    · exact .inl (hstart.trans hkept)
    · exact .inr (.inl ⟨hpre, hstart.node ▸ hnone, hdir⟩)
    · exact .inr (.inr (heq.trans (installTarget_congr hout)))
  generalize hend : installFile W.install d₁ tmp bytes out = fin at hinstall ⊢
  rcases fin with ⟨_ | _, d₂⟩
  · exact .broke hinstall
  · obtain ⟨hne, hfile, hdir⟩ := installFile_ok hend
    rw [installTarget_congr hout] at hne hfile
    rw [hout] at hdir
    exact .installed hdelivered (not_not.mp hsha) hinstall hne hfile hdir

/-! ## The script -/

/-- What the launch parameter says, by the first endpoint that answered. -/
structure Launch (W : LaunchWorld) (url want : String) : Prop where
  answer : ∃ attempt e body, FirstAnswer W attempt e body ∧
    (∃ out, W.jq ".manifest_url" (capture body ++ "\n") = some out ∧ url = capture out) ∧
    (∃ out, W.jq ".manifest_sha256" (capture body ++ "\n") = some out ∧ want = capture out)
  https : isHttps url = true
  sha256 : isSha256Hex want = true

theorem fetchManifest_cases (W : LaunchWorld) (out : Path) (d : Disk) :
    (∃ f, fetchManifest W out d = ⟨d, some f⟩) ∨
      ∃ url want tmp, Launch W url want ∧ W.mktemp = some tmp ∧ d.node tmp = none ∧
        fetchManifest W out d = ⟨(fetchInto W out tmp url want (d.create tmp [])).disk.unlink tmp,
          (fetchInto W out tmp url want (d.create tmp [])).fatal⟩ := by
  unfold fetchManifest
  simp only
  split
  · exact .inl ⟨_, rfl⟩
  rename_i hdata
  obtain ⟨attempt, e, body, hfirst, hbody⟩ := userData_ne hdata
  rw [hbody]
  cases hurl : W.jq ".manifest_url" (capture body ++ "\n") with
  | none => exact .inl ⟨_, rfl⟩
  | some url =>
    cases hwant : W.jq ".manifest_sha256" (capture body ++ "\n") with
    | none => exact .inl ⟨_, rfl⟩
    | some want =>
      simp only
      split
      · exact .inl ⟨_, rfl⟩
      rename_i hhttps
      split
      · exact .inl ⟨_, rfl⟩
      rename_i hhex
      cases htmp : mktemp W.mktemp d with
      | none => exact .inl ⟨_, rfl⟩
      | some made =>
        obtain ⟨tmp, d₁⟩ := made
        obtain ⟨hname, hfree, rfl⟩ := mktemp_some htmp
        refine .inr ⟨capture url, capture want, tmp, ?_, hname, hfree, rfl⟩
        exact ⟨⟨attempt, e, body, hfirst, ⟨url, hurl, rfl⟩, ⟨want, hwant, rfl⟩⟩, by simpa using hhttps,
          by simpa using hhex⟩

/-- Making the temporary file and removing it again adds nothing to what happened between. -/
theorem unchanged_of_tmp {d d' : Disk} {tmp q : Path} (hfree : d.node tmp = none)
    (h : q ≠ tmp → Unchanged (d.create tmp []) d' q) : Unchanged d (d'.unlink tmp) q := by
  by_cases hq : q = tmp
  · subst hq
    refine ⟨?_, ?_⟩
    · simp [Disk.unlink, hfree]
    · rw [Disk.unlink_read_self, Disk.read, hfree]
  · exact ((unchanged_create d [] hq).trans (h hq)).trans (unchanged_unlink d' hq)

theorem create_dir_iff {d : Disk} {tmp out : Path} (hfree : d.node tmp = none) :
    (d.create tmp []).node out = some .dir ↔ d.node out = some .dir := by
  by_cases hout : out = tmp
  · subst hout
    simp [Disk.create, hfree]
  · simp [Disk.create, hout]

theorem installTarget_create {d : Disk} {tmp : Path} (out : Path) (hfree : d.node tmp = none) :
    installTarget (d.create tmp []) tmp out = installTarget d tmp out := by
  simp only [installTarget, create_dir_iff hfree]

theorem installFrame_of_tmp {d d' : Disk} {tmp out q : Path} (hfree : d.node tmp = none)
    (h : q ≠ tmp → InstallFrame (d.create tmp []) d' tmp out q) : InstallFrame d (d'.unlink tmp) tmp out q := by
  by_cases hq : q = tmp
  · exact .inl (unchanged_of_tmp hfree fun hne => absurd hq hne)
  have hold := unchanged_create d [] hq
  have hnew := unchanged_unlink d' hq
  rcases h hq with hkept | ⟨hpre, hnone, hdir⟩ | htarget
  · exact .inl ((hold.trans hkept).trans hnew)
  · exact .inr (.inl ⟨hpre, hold.node ▸ hnone, hnew.node.trans hdir⟩)
  · exact .inr (.inr (htarget.trans (installTarget_create out hfree)))

section Ends
variable {W : LaunchWorld} {out : Path} {d : Disk}

theorem fetchManifest_ok (h : (fetchManifest W out d).fatal = none) :
    ∃ url want bytes tmp, Launch W url want ∧ W.download url = .delivered bytes ∧ W.sha256sum bytes = want ∧
      W.mktemp = some tmp ∧ (fetchManifest W out d).disk.read (installTarget d tmp out) = some bytes ∧
      (d.node out = some .dir → (fetchManifest W out d).disk.read out = none) := by
  rcases fetchManifest_cases W out d with ⟨f, hstop⟩ | ⟨url, want, tmp, hlaunch, hname, hfree, hrun⟩
  · rw [hstop] at h
    cases h
  rw [hrun] at h ⊢
  have hcase := fetchInto_cases W out tmp url want d
  generalize fetchInto W out tmp url want (d.create tmp []) = o at hcase h ⊢
  cases hcase with
  | died msg _ => cases h
  | broke _ => cases h
  | @installed d' bytes hdelivered hsha _ hne hread hdir =>
    rw [installTarget_create out hfree] at hne hread
    refine ⟨url, want, bytes, tmp, hlaunch, hdelivered, hsha, hname, ?_, ?_⟩
    · rw [d'.unlink_read_of_ne hne, hread]
    · intro hout
      by_cases heq : out = tmp
      · rw [heq, Disk.unlink_read_self]
      · rw [d'.unlink_read_of_ne heq, hdir ((create_dir_iff hfree).mpr hout)]

theorem fetchManifest_died {msg : String} (h : (fetchManifest W out d).fatal = some (.die msg)) (q : Path) :
    Unchanged d (fetchManifest W out d).disk q := by
  rcases fetchManifest_cases W out d with ⟨f, hstop⟩ | ⟨url, want, tmp, -, -, hfree, hrun⟩
  · rw [hstop]
    exact ⟨rfl, rfl⟩
  rw [hrun] at h ⊢
  have hcase := fetchInto_cases W out tmp url want d
  generalize fetchInto W out tmp url want (d.create tmp []) = o at hcase h ⊢
  cases hcase with
  | died _ hframe => exact unchanged_of_tmp hfree (hframe q)
  | broke _ => cases h
  | installed _ _ _ _ _ _ => cases h

theorem fetchManifest_frame (q : Path) :
    Unchanged d (fetchManifest W out d).disk q ∨
      ∃ tmp, W.mktemp = some tmp ∧ InstallFrame d (fetchManifest W out d).disk tmp out q := by
  rcases fetchManifest_cases W out d with ⟨f, hstop⟩ | ⟨url, want, tmp, -, hname, hfree, hrun⟩
  · rw [hstop]
    exact .inl ⟨rfl, rfl⟩
  rw [hrun]
  have hcase := fetchInto_cases W out tmp url want d
  generalize fetchInto W out tmp url want (d.create tmp []) = o at hcase ⊢
  cases hcase with
  | died _ hframe => exact .inl (unchanged_of_tmp hfree (hframe q))
  | broke hframe => exact .inr ⟨tmp, hname, installFrame_of_tmp hfree (hframe q)⟩
  | installed _ _ hframe _ _ _ => exact .inr ⟨tmp, hname, installFrame_of_tmp hfree (hframe q)⟩

end Ends

/-! ## When it succeeds -/

section Succeeds
variable {W : LaunchWorld}

theorem awaitUserData_of_first {first len attempt : Nat} {answer : String} (hle : first ≤ attempt)
    (hlt : attempt < first + len) (hearlier : ∀ n, first ≤ n → n < attempt → fetchUserData W n = none)
    (hanswer : fetchUserData W attempt = some answer) :
    awaitUserData W (List.range' first len) = capture answer := by
  induction len generalizing first with
  | zero => omega
  | succ len ih =>
    rw [List.range'_succ, awaitUserData]
    rcases Nat.eq_or_lt_of_le hle with rfl | hlater
    · rw [hanswer]
    · rw [hearlier first (Nat.le_refl _) hlater]
      exact ih hlater (by omega) fun n hn => hearlier n (by omega)

theorem userData_of_first {attempt : Nat} {e : MetadataEndpoint} {body : String} (h : FirstAnswer W attempt e body) :
    userData W = capture (echo (capture body)) := by
  obtain ⟨pre, post, hsplit, hpre⟩ := h.before
  refine awaitUserData_of_first h.attempts.1 (by have := h.attempts; omega) (fun n hn hlt => ?_) ?_
  · exact List.findSome?_eq_none_iff.mpr fun e' _ => by simp [h.earlier n hn hlt e']
  · refine List.findSome?_eq_some_iff.mpr ⟨pre, e, post, hsplit, ?_, fun e' he' => ?_⟩
    · simp [h.answered]
    · simp [hpre e' he']

/-- There is room for the temporary file and for the target, and `install` comes through. -/
structure Installable (W : LaunchWorld) (out tmp : Path) (d : Disk) : Prop where
  name : W.mktemp = some tmp
  free : d.node tmp = none
  parent : d.node tmp.dropLast = some .dir
  named : out ≠ []
  -- the temporary file is neither the target nor on the way to it
  apart : installTarget d tmp out ≠ tmp
  aside : ¬ tmp <+: out.dropLast
  way : ∀ q, q <+: out.dropLast → d.isFile q = false
  room : d.node (installTarget d tmp out) ≠ some .dir
  whole : W.install = .installed

theorem mktemp_of {tmp : Path} {d : Disk} (hfree : d.node tmp = none) (hparent : d.node tmp.dropLast = some .dir) :
    mktemp (some tmp) d = some (tmp, d.create tmp []) := by
  simp [mktemp, hfree, hparent]

theorem replaceFile_installed {d : Disk} {tmp target : Path} {bytes : Bytes} (hdir : d.node target ≠ some .dir)
    (hne : d.node target ≠ d.node tmp) : (replaceFile .installed d tmp bytes target).1 = true := by
  simp [replaceFile, hdir, hne]

theorem installFile_of {out tmp : Path} {d d₁ : Disk} {bytes : Bytes} (h : Installable W out tmp d)
    (hnode : d₁.node = (d.create tmp []).node) : (installFile .installed d₁ tmp bytes out).1 = true := by
  have htmp : d₁.node tmp = some (.file d.next) := by simp [hnode, Disk.create]
  have hold : ∀ q, q ≠ tmp → d₁.node q = d.node q := fun q hq => by simp [hnode, Disk.create, hq]
  -- the temporary file has an inode of its own
  have hfresh : d₁.node (installTarget d tmp out) ≠ d₁.node tmp := by
    rw [hold _ h.apart, htmp]
    intro heq
    exact absurd (d.inUse _ _ heq) (Nat.lt_irrefl _)
  have hroom : d₁.node (installTarget d tmp out) ≠ some .dir := by
    rw [hold _ h.apart]
    exact h.room
  have hdir : d₁.node out = some .dir ↔ d.node out = some .dir := by rw [hnode, create_dir_iff h.free]
  unfold installFile
  by_cases hout : d.node out = some .dir
  · rw [installTarget, if_pos hout] at hfresh hroom
    rw [if_pos (hdir.mpr hout)]
    exact replaceFile_installed hroom hfresh
  · rw [installTarget, if_neg hout] at hfresh hroom
    rw [if_neg (mt hdir.mp hout)]
    have hway : ∀ q ∈ out.dropLast.inits, d₁.isFile q = false := by
      intro q hq
      have hpre := (List.mem_inits _ _).mp hq
      have hne : q ≠ tmp := fun heq => h.aside (heq ▸ hpre)
      have hclear := h.way q hpre
      rw [Disk.isFile] at hclear ⊢
      rw [hold q hne]
      exact hclear
    obtain ⟨hmade, hkept⟩ := Disk.mkdirAll_ok hway
    have houtKept : (d₁.mkdirAll out.dropLast.inits).2.node out = d₁.node out := by
      rw [hkept, if_neg fun hmem => not_prefix_dropLast h.named ((List.mem_inits _ _).mp hmem.1)]
    have htmpKept : (d₁.mkdirAll out.dropLast.inits).2.node tmp = d₁.node tmp := by
      rw [hkept, if_neg fun hmem => by simp [htmp] at hmem]
    rw [Disk.mkdirP]
    generalize d₁.mkdirAll out.dropLast.inits = made at hmade houtKept htmpKept ⊢
    obtain ⟨_, d₂⟩ := made
    subst hmade
    exact replaceFile_installed (houtKept ▸ hroom) (by rw [houtKept, htmpKept]; exact hfresh)

theorem fetchManifest_of {out tmp : Path} {url want : String} {bytes : Bytes} {d : Disk} (h : Launch W url want)
    (hdata : userData W ≠ "") (hdelivered : W.download url = .delivered bytes) (hsha : W.sha256sum bytes = want)
    (hd : Installable W out tmp d) : (fetchManifest W out d).fatal = none := by
  obtain ⟨attempt, e, body, hfirst, ⟨rawUrl, hurl, rfl⟩, ⟨rawWant, hwant, rfl⟩⟩ := h.answer
  rw [userData_of_first hfirst] at hdata
  have hbody : userData W = capture body := (userData_of_first hfirst).trans (capture_echo_capture hdata)
  rw [capture_echo_capture hdata] at hdata
  have hnode : (d.create tmp []).node tmp = some (.file d.next) := by simp [Disk.create]
  have hwritten : curl (.delivered bytes) (d.create tmp []) tmp =
      (true, (d.create tmp []).setContent d.next bytes) := by
    simp [curl, Disk.write, hnode]
  have hread : ((d.create tmp []).setContent d.next bytes).read tmp = some bytes := by
    simp [Disk.read, Disk.setContent, Disk.create]
  have hinto : (fetchInto W out tmp (capture rawUrl) (capture rawWant) (d.create tmp [])).fatal = none := by
    have hinstalled : (installFile .installed ((d.create tmp []).setContent d.next bytes) tmp bytes out).1 = true :=
      installFile_of hd rfl
    simp only [fetchInto, hdelivered, hwritten, hread, hsha, ne_eq, not_true_eq_false, if_false, hd.whole]
    generalize installFile .installed ((d.create tmp []).setContent d.next bytes) tmp bytes out = fin at hinstalled ⊢
    obtain ⟨_, d₂⟩ := fin
    subst hinstalled
    rfl
  simp only [fetchManifest, hbody, if_neg hdata, hurl, hwant, h.https, h.sha256, Bool.not_true, Bool.false_eq_true,
    if_false, hd.name, mktemp_of hd.free hd.parent, hinto]

end Succeeds

/-- The manifest that iron-manifest installs: what was downloaded from the url of the
first endpoint that answered, checked against the hash that came with it. -/
theorem launch_manifest_verified (W : LaunchWorld) (out : Path) (d : Disk) :
    -- exit 0: the bytes that match the launch parameter are at the output path, or in the directory there
    ((fetchManifest W out d).fatal = none → ∃ url want bytes tmp, Launch W url want ∧
      W.download url = .delivered bytes ∧ W.sha256sum bytes = want ∧ W.mktemp = some tmp ∧
      (d.node out ≠ some .dir → (fetchManifest W out d).disk.read out = some bytes) ∧
      (d.node out = some .dir → (fetchManifest W out d).disk.read out = none ∧
        (fetchManifest W out d).disk.read (out ++ tmp.getLast?.toList) = some bytes)) ∧
    -- a refusal leaves the disk as it was
    (∀ msg, (fetchManifest W out d).fatal = some (.die msg) → ∀ q, Unchanged d (fetchManifest W out d).disk q) ∧
    -- in every case nothing else is touched or left behind but missing directories above the output path
    (∀ q, Unchanged d (fetchManifest W out d).disk q ∨
      (q <+: out.dropLast ∧ d.node q = none ∧ (fetchManifest W out d).disk.node q = some .dir) ∨
      (d.node out ≠ some .dir ∧ q = out) ∨
      (d.node out = some .dir ∧ ∃ tmp, W.mktemp = some tmp ∧ q = out ++ tmp.getLast?.toList)) ∧
    -- and with the right bytes delivered and room on the disk it does exit 0
    (∀ url want bytes tmp, Launch W url want → userData W ≠ "" → W.download url = .delivered bytes →
      W.sha256sum bytes = want → Installable W out tmp d → (fetchManifest W out d).fatal = none) := by
  refine ⟨fun hok => ?_, fun _ h q => fetchManifest_died h q, fun q => ?_, fun url want bytes tmp => fetchManifest_of⟩
  · obtain ⟨url, want, bytes, tmp, hlaunch, hdelivered, hsha, hname, hfile, hdir⟩ := fetchManifest_ok hok
    refine ⟨url, want, bytes, tmp, hlaunch, hdelivered, hsha, hname, fun hout => ?_, fun hout => ⟨hdir hout, ?_⟩⟩
    · rwa [installTarget, if_neg hout] at hfile
    · rwa [installTarget, if_pos hout] at hfile
  · rcases fetchManifest_frame q with hkept | ⟨tmp, hname, hkept | hmade | htarget⟩
    · exact .inl hkept
    · exact .inl hkept
    · exact .inr (.inl hmade)
    · by_cases hout : d.node out = some .dir
      · rw [installTarget, if_pos hout] at htarget
        exact .inr (.inr (.inr ⟨hout, tmp, hname, htarget⟩))
      · rw [installTarget, if_neg hout] at htarget
        exact .inr (.inr (.inl ⟨hout, htarget⟩))

/-- `/etc/iron/manifest.json` -/
def manifestPath : Path := ["etc", "iron", "manifest.json"]

namespace Launching

/-- A cohort of one member. -/
def manifest : Bytes :=
  ("\x7b\"cohort_id\":\"cohort\",\"members\":[\x7b\"pubkey\":\"" ++
    "0404040404040404040404040404040404040404040404040404040404040404" ++
    "0404040404040404040404040404040404040404040404040404040404040404" ++ "04\",\"hash\":\"" ++
    "9e262c5850f25242d9b2ddac124082eb890c01256a996edc8dc390726a894500" ++ "\"\x7d]\x7d").toByteArray.data.toList

/-- SHA-256 of this manifest. -/
def digest : String := "a75ee89c7adbeced5bb4f5fa34802cf7ddf55daeb625f99f903965ff3d1a4a21"

def sha256sum (bytes : Bytes) : String := if bytes = manifest then digest else TwoFiles.sha256sum bytes

def userData : String :=
  "\x7b\"manifest_url\": \"https://m\", \"manifest_sha256\": \"" ++ digest ++ "\"\x7d"

def launchWorld : LaunchWorld where
  metadata attempt e := if attempt = 2 ∧ e = .openstack then some userData else none
  jq filter input :=
    if input ≠ userData ++ "\n" then none
    else if filter = ".manifest_url" then some "https://m\n"
    else some (digest ++ "\n")
  mktemp := some ["tmp", "tmp.0"]
  download url := if url = "https://m" then .delivered manifest else .failed none
  sha256sum := sha256sum
  install := .installed

/-- A root disk with the given directories. -/
def rootWith (dirs : List Path) : Disk where
  node p := if p ∈ [] :: ["tmp"] :: dirs then some .dir else none
  content _ := []
  next := 0
  inUse := by
    intro p i h
    split at h <;> cases h

def rootFs : Disk := rootWith []

/-- Where the output path is a directory already. -/
def rootWithDir : Disk := rootWith [["etc"], ["etc", "iron"], manifestPath]

theorem capture_userData : capture userData = userData := by decide +kernel

theorem firstAnswer : FirstAnswer launchWorld 2 .openstack userData where
  attempts := by decide
  answered := rfl
  earlier n _ hn e := by simp [launchWorld, Nat.ne_of_lt hn]
  before := ⟨[.ec2, .gce], [], rfl, by decide⟩

theorem userData_ne_empty : IronInstance.userData launchWorld ≠ "" := by
  rw [userData_of_first firstAnswer, capture_userData]
  decide +kernel

theorem launched : Launch launchWorld "https://m" digest where
  answer := by
    refine ⟨2, .openstack, userData, firstAnswer, ⟨"https://m\n", ?_, by decide⟩, ⟨digest ++ "\n", ?_, by decide +kernel⟩⟩
    · rw [capture_userData]
      simp [launchWorld]
    · rw [capture_userData]
      simp [launchWorld]
  https := by decide
  sha256 := by decide +kernel

theorem isFile_rootWith (dirs : List Path) (p : Path) : (rootWith dirs).isFile p = false := by
  by_cases h : p ∈ [] :: ["tmp"] :: dirs
  · simp only [Disk.isFile, rootWith, if_pos h]
  · simp only [Disk.isFile, rootWith, if_neg h]

theorem installable_rootWith {dirs : List Path} (hfree : (rootWith dirs).node ["tmp", "tmp.0"] = none)
    (hapart : installTarget (rootWith dirs) ["tmp", "tmp.0"] manifestPath ≠ ["tmp", "tmp.0"])
    (hroom : (rootWith dirs).node (installTarget (rootWith dirs) ["tmp", "tmp.0"] manifestPath) ≠ some .dir) :
    Installable launchWorld manifestPath ["tmp", "tmp.0"] (rootWith dirs) where
  name := rfl
  free := hfree
  parent := by simp [rootWith]
  named := by decide
  apart := hapart
  aside := by decide +kernel
  way q _ := isFile_rootWith dirs q
  room := hroom
  whole := rfl

theorem installable_rootFs : Installable launchWorld manifestPath ["tmp", "tmp.0"] rootFs :=
  installable_rootWith (by decide) (by decide) (by decide)

theorem installable_rootWithDir : Installable launchWorld manifestPath ["tmp", "tmp.0"] rootWithDir :=
  installable_rootWith (by decide) (by decide) (by decide)

theorem manifest_digest : launchWorld.sha256sum manifest = digest := by
  simp only [launchWorld, sha256sum, if_true]

theorem download_manifest : launchWorld.download "https://m" = .delivered manifest := by
  simp only [launchWorld, if_true]

theorem delivered_manifest {bytes : Bytes} {url : String} (h : launchWorld.download url = .delivered bytes) :
    bytes = manifest := by
  by_cases hurl : url = "https://m"
  · simp only [launchWorld, if_pos hurl, Download.delivered.injEq] at h
    exact h.symm
  · simp [launchWorld, hurl] at h

end Launching

theorem launch_manifest_verified_first_boot :
    ((fetchManifest Launching.launchWorld manifestPath Launching.rootFs).fatal = none ∧
      (fetchManifest Launching.launchWorld manifestPath Launching.rootFs).disk.read manifestPath =
        some Launching.manifest) ∧
    (fetchManifest Launching.launchWorld manifestPath Launching.rootWithDir).fatal = none ∧
      (fetchManifest Launching.launchWorld manifestPath Launching.rootWithDir).disk.read manifestPath = none ∧
      (fetchManifest Launching.launchWorld manifestPath Launching.rootWithDir).disk.read (manifestPath ++ ["tmp.0"]) =
        some Launching.manifest := by
  constructor
  · obtain ⟨hok, -, -, hsucceeds⟩ := launch_manifest_verified Launching.launchWorld manifestPath Launching.rootFs
    have hfatal := hsucceeds _ _ _ _ Launching.launched Launching.userData_ne_empty
      Launching.download_manifest Launching.manifest_digest Launching.installable_rootFs
    obtain ⟨url, want, bytes, tmp, -, hdelivered, -, -, hfile, -⟩ := hok hfatal
    refine ⟨hfatal, ?_⟩
    rw [hfile (by decide +kernel), Launching.delivered_manifest hdelivered]
  · obtain ⟨hok, -, -, hsucceeds⟩ := launch_manifest_verified Launching.launchWorld manifestPath Launching.rootWithDir
    have hfatal := hsucceeds _ _ _ _ Launching.launched Launching.userData_ne_empty
      Launching.download_manifest Launching.manifest_digest Launching.installable_rootWithDir
    obtain ⟨url, want, bytes, tmp, -, hdelivered, -, hname, -, hdir⟩ := hok hfatal
    obtain ⟨hnone, hfile⟩ := hdir (by decide +kernel)
    cases hname
    exact ⟨hfatal, hnone, by rw [← Launching.delivered_manifest hdelivered]; exact hfile⟩

end IronInstance
