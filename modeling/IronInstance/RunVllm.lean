import IronInstance.Boot

/-!
# The model server

`iron-fetch-artifacts --run-vllm`, the same script in its other mode. It checks that the
pins are there, as the fetching mode does, and replaces itself by `podman run` on the
image that was pulled, with one argument for each line that `jq` prints of `vllm.args`.
The failure of a process substitution goes unnoticed, so a missing list is an empty one.
-/

namespace IronInstance
open FileSystem Runs
set_option autoImplicit false

/-- An element of `vllm.args` as `jq -r` prints it; no argument of a program has a NUL. -/
structure VllmArg where
  text : String
  nul_free : Char.ofNat 0 ∉ text.toList

/-- `jq -r '.vllm.args[]'`; without the field it fails and prints nothing. -/
def jqArgs (args : Option (List VllmArg)) : List Char :=
  (args.getD []).flatMap fun a => a.text.toList ++ ['\n']

/-- `mapfile -t`, with `line` the part of the current line that was read. -/
def mapfile (line : List Char) : List Char → List String
  | [] => if line = [] then [] else [String.ofList line]
  | c :: rest => if c = '\n' then String.ofList line :: mapfile [] rest else mapfile (line ++ [c]) rest

def podmanRun (dataDir ref : String) : List String :=
  ["podman", "run", "--rm", "--name", "vllm", "--network=host", "--device", "nvidia.com/gpu=all",
    "--security-opt=label=disable", "-v", dataDir ++ "/model:/model:ro", ref, "--model", "/model"]

/-- The program the script becomes, or how it dies before. -/
def runVllm (A : PinnedArtifacts) (args : Option (List VllmArg)) (dataDir : String) : Except Fatal (List String) :=
  let image := capture (jqRaw A.image)
  let digest := capture (jqRaw A.digest)
  if ¬ (digest ≠ "" ∧ "sha256:".toList.isPrefixOf digest.toList) then
    .error (.die "vllm.digest is not pinned (run nix/pin-artifacts.sh)")
  else if ¬ 0 < A.files.length then
    .error (.die "model.files is empty (run nix/pin-artifacts.sh)")
  else if capture (jqRaw A.repo) = "" ∨ capture (jqRaw A.revision) = "" then
    .error (.die "model.repo/revision not pinned")
  else .ok (podmanRun dataDir (image ++ "@" ++ digest) ++ mapfile [] (jqArgs args))

/-! ## One argument for each line -/

theorem mapfile_line {text : List Char} (h : '\n' ∉ text) (line rest : List Char) :
    mapfile line (text ++ '\n' :: rest) = String.ofList (line ++ text) :: mapfile [] rest := by
  induction text generalizing line with
  | nil => simp [mapfile]
  | cons c text ih =>
    obtain ⟨hc, htext⟩ := List.ne_and_not_mem_of_not_mem_cons h
    rw [List.cons_append, mapfile, if_neg (Ne.symm hc), ih htext]
    simp

theorem mapfile_length (line text rest : List Char) :
    (mapfile line (text ++ '\n' :: rest)).length = text.count '\n' + 1 + (mapfile [] rest).length := by
  induction text generalizing line with
  | nil => simp [mapfile, Nat.add_comm]
  | cons c text ih =>
    rw [List.cons_append, mapfile, List.count_cons]
    split
    · rename_i hc
      simp [ih, hc]
      omega
    · rename_i hc
      simp [ih, hc]

/-- A newline makes two arguments of one. -/
theorem mapfile_jqArgs (args : Option (List VllmArg)) :
    mapfile [] (jqArgs args) = (args.getD []).map VllmArg.text ↔ ∀ a ∈ args.getD [], '\n' ∉ a.text.toList := by
  unfold jqArgs
  generalize args.getD [] = l
  have hlength : ∀ l : List VllmArg, (mapfile [] (l.flatMap fun a => a.text.toList ++ ['\n'])).length =
      (l.map fun a => a.text.toList.count '\n').sum + l.length := by
    intro l
    induction l with
    | nil => simp [mapfile]
    | cons a l ih =>
      simp only [List.flatMap_cons, List.append_assoc, List.singleton_append, mapfile_length, ih, List.map_cons,
        List.sum_cons, List.length_cons]
      omega
  constructor
  · intro h a ha
    have hsum : (l.map fun a => a.text.toList.count '\n').sum = 0 := by
      have := congrArg List.length h
      rw [hlength, List.length_map] at this
      omega
    have hzero := List.sum_eq_zero_iff.mp hsum _ (List.mem_map.mpr ⟨a, ha, rfl⟩)
    exact List.count_eq_zero.mp hzero
  · intro h
    induction l with
    | nil => rfl
    | cons a l ih =>
      obtain ⟨ha, hl⟩ := List.forall_mem_cons.mp h
      simp only [List.flatMap_cons, List.append_assoc, List.singleton_append, mapfile_line ha, ih hl, List.map_cons,
        List.nil_append, String.ofList_toList]

/-! ## The two modes of the script -/

theorem fetchArtifacts_pulled {W : World} {A : PinnedArtifacts} {d : Disk} (hok : (fetchArtifacts W A d).fatal = none)
    (args : Option (List VllmArg)) (dataDir : String) :
    ∃ ref, W.podmanPull ref = true ∧
      runVllm A args dataDir = .ok (podmanRun dataDir ref ++ mapfile [] (jqArgs args)) := by
  unfold fetchArtifacts at hok
  simp only at hok
  unfold runVllm
  simp only
  split at hok
  · cases hok
  rename_i hdigest
  split at hok
  · cases hok
  rename_i hfiles
  split at hok
  · cases hok
  rename_i hpinned
  rw [if_neg hdigest, if_neg hfiles, if_neg hpinned]
  refine ⟨_, ?_, rfl⟩
  rcases hmk : Files.mkdirP d modelDir with ⟨_ | _, d₁⟩
  · rw [hmk] at hok
    cases hok
  · cases hpull : W.podmanPull (capture (jqRaw A.image) ++ "@" ++ capture (jqRaw A.digest)) with
    | true => rfl
    | false =>
      rw [hmk, hpull] at hok
      cases hok

/-! ## In a boot -/

section Boots
variable {P : Primitives} {I : Image P} {rootDisk : String} {b c : Boot P} {e : BootEvent} {es : List BootEvent}

/-- The unit iron-artifacts is up only after its script has exited 0 in this boot. -/
theorem fetched_run {disks : String → Disk} (h : Run (BootStep I rootDisk) (powerOn disks) es b)
    (hup : b.unit .artifacts = .active) :
    ∃ (W : World) (d : Disk), .artifacts W ∈ es ∧ (fetchArtifacts W I.artifacts d).fatal = none := by
  refine h.reverseInduction (P := fun es b => b.unit .artifacts = .active →
    ∃ (W : World) (d : Disk), .artifacts W ∈ es ∧ (fetchArtifacts W I.artifacts d).fatal = none) ?_ ?_ hup
  · intro hup
    cases hup
  · intro es b e c _ hstep ih hup
    have hearlier : b.unit .artifacts = .active →
        ∃ (W : World) (d : Disk), .artifacts W ∈ es ++ [e] ∧ (fetchArtifacts W I.artifacts d).fatal = none := by
      intro hb
      obtain ⟨W, d, hmem, hok⟩ := ih hb
      exact ⟨W, d, List.mem_append_left _ hmem, hok⟩
    cases hstep with
    | @artifacts n W _ _ _ =>
      refine ⟨W, b.disks n, by simp, ?_⟩
      simp only [Function.update_self] at hup
      exact ofExit_active hup
    | @killed u n d hready hn =>
      by_cases hu : u = .artifacts
      · subst hu
        simp at hup
      · exact hearlier (by simpa [Ne.symm hu] using hup)
    | serve _ _ => exact hearlier hup
    | datadisk _ _ => exact hearlier (by simpa using hup)
    | noDisk _ _ => exact hearlier (by simpa using hup)
    | vllm _ => exact hearlier (by simpa using hup)
    | manifest _ _ => exact hearlier (by simpa using hup)
    | ironInstance _ _ => exact hearlier (by simpa using hup)
    | exitVllm _ => exact hearlier (by simpa using hup)
    | exitInstance _ => exact hearlier (by simpa using hup)

end Boots

end IronInstance
