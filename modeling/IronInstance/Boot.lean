import IronInstance.FetchManifest
import IronInstance.Membership

/-!
# Boot

The units of the image and what they hand to each other: iron-datadisk formats a disk,
iron-artifacts fills it, vllm and iron-instance come after, and iron-manifest writes
the manifest that iron-instance reads. A unit starts once all it requires are active;
in the image every `requires` comes with the matching `after`. A oneshot unit stays
active or failed, a simple one may exit and be started again. Nothing but these units
writes to the disks.
-/

namespace IronInstance
open FileSystem Programs Runs
set_option autoImplicit false

/-! ## The data disk -/

/-- A line of `lsblk -bdno NAME,SIZE,FSTYPE`. -/
structure BlockDevice where
  name : String
  size : Nat
  fstype : String
  deriving DecidableEq

/-- `sort -rn | head -1` on the lines `SIZE NAME`. -/
def largest : List BlockDevice → Option BlockDevice
  | [] => none
  | b :: rest =>
    match largest rest with
    | none => some b
    | some c => if c.size < b.size ∨ (c.size = b.size ∧ c.name ≤ b.name) then some b else some c

/-- The device that iron-datadisk formats. -/
def pickDevice (rootDisk : String) (devices : List BlockDevice) : Option BlockDevice :=
  largest (devices.filter fun b => b.fstype == "" && b.name != rootDisk)

/-- A new ext4: no files. -/
def formatted : Disk where
  node p := if p = [] ∨ p = ["lost+found"] then some .dir else none
  content _ := []
  next := 0
  inUse := by
    intro p i h
    split at h <;> cases h

/-! ## The service process -/

structure Image (P : Primitives) where
  artifacts : PinnedArtifacts
  anchors : Anchors P
  sha256sum : Bytes → String
  /-- `Manifest::from_bytes` -/
  fromBytes : Bytes → Option Manifest
  /-- Every model file is pinned once. -/
  distinct : (artifacts.files.map fun e => e.path.text).Nodup

/-- `main` up to the listener: `env` is IRON_MANIFEST_PATH, and `none` is a panic. -/
def startConfig {P : Primitives} (I : Image P) (env : Option Path) (root : Disk) (spkiSha256 : Vector UInt8 32) :
    Option (Config P) :=
  match env with
  | some path => do
    let bytes ← root.read path
    let manifest ← I.fromBytes bytes
    some ⟨I.anchors, manifest, spkiSha256⟩
  | none => some ⟨I.anchors, ⟨"", []⟩, spkiSha256⟩

/-! ## The units -/

inductive BootUnit where
  | datadisk
  | artifacts
  | vllm
  | manifest
  | ironInstance
  deriving DecidableEq

def BootUnit.requires : BootUnit → List BootUnit
  | .datadisk => []
  | .artifacts => [.datadisk]
  | .vllm => [.artifacts]
  | .manifest => []
  | .ironInstance => [.vllm, .manifest]

inductive UnitState where
  | inactive
  | active
  | failed
  deriving DecidableEq

def UnitState.ofExit : Option Fatal → UnitState
  | none => .active
  | some _ => .failed

structure Boot (P : Primitives) where
  unit : BootUnit → UnitState
  disks : String → Disk
  data : Option String
  serving : Option (Config P × ServiceState)

def powerOn {P : Primitives} (disks : String → Disk) : Boot P := ⟨fun _ => .inactive, disks, none, none⟩

inductive BootEvent where
  | datadisk (devices : List BlockDevice)
  | artifacts (W : World)
  | vllm
  | manifest (W : LaunchWorld)
  | ironInstance
  | serve (e : ServiceEvent)
  | exit (u : BootUnit)
  | killed (u : BootUnit)

section System
variable {P : Primitives} (I : Image P) (rootDisk : String)

def Ready (b : Boot P) (u : BootUnit) : Prop := b.unit u = .inactive ∧ ∀ v ∈ u.requires, b.unit v = .active

/-- The disks a oneshot unit writes to. -/
def Writes (b : Boot P) : BootUnit → String → Prop
  | .datadisk, n => ∃ devices dev, pickDevice rootDisk devices = some dev ∧ n = dev.name
  | .artifacts, n => b.data = some n
  | .manifest, n => n = rootDisk
  | _, _ => False

inductive BootStep : Boot P → BootEvent → Boot P → Prop where
  | datadisk {b : Boot P} {devices : List BlockDevice} {dev : BlockDevice} (hready : Ready b .datadisk)
      (hpick : pickDevice rootDisk devices = some dev) :
      BootStep b (.datadisk devices) { b with
        unit := Function.update b.unit .datadisk .active
        disks := Function.update b.disks dev.name formatted
        data := some dev.name }
  | noDisk {b : Boot P} {devices : List BlockDevice} (hready : Ready b .datadisk)
      (hpick : pickDevice rootDisk devices = none) :
      BootStep b (.datadisk devices) { b with unit := Function.update b.unit .datadisk .failed }
  | artifacts {b : Boot P} {n : String} {W : World} (hready : Ready b .artifacts) (hdata : b.data = some n)
      (hsha : W.sha256sum = I.sha256sum) :
      BootStep b (.artifacts W) { b with
        unit := Function.update b.unit .artifacts (.ofExit (fetchArtifacts W I.artifacts (b.disks n)).fatal)
        disks := Function.update b.disks n (fetchArtifacts W I.artifacts (b.disks n)).disk }
  | vllm {b : Boot P} (hready : Ready b .vllm) :
      BootStep b .vllm { b with unit := Function.update b.unit .vllm .active }
  | manifest {b : Boot P} {W : LaunchWorld} (hready : Ready b .manifest) (hsha : W.sha256sum = I.sha256sum) :
      BootStep b (.manifest W) { b with
        unit := Function.update b.unit .manifest (.ofExit (fetchManifest W manifestPath (b.disks rootDisk)).fatal)
        disks := Function.update b.disks rootDisk (fetchManifest W manifestPath (b.disks rootDisk)).disk }
  | ironInstance {b : Boot P} {spkiSha256 : Vector UInt8 32} {C : Config P} (hready : Ready b .ironInstance)
      (hstart : startConfig I (some manifestPath) (b.disks rootDisk) spkiSha256 = some C) :
      BootStep b .ironInstance { b with
        unit := Function.update b.unit .ironInstance .active
        serving := some (C, bootState) }
  | serve {b : Boot P} {C : Config P} {p q : ServiceState} {e : ServiceEvent} (hserving : b.serving = some (C, p))
      (hstep : ServiceStep C p e q) : BootStep b (.serve e) { b with serving := some (C, q) }
  -- the simple units: started again later, or given up
  | exitVllm {b : Boot P} {s : UnitState} (hs : s ≠ .active) :
      BootStep b (.exit .vllm) { b with unit := Function.update b.unit .vllm s }
  | exitInstance {b : Boot P} {s : UnitState} (hs : s ≠ .active) :
      BootStep b (.exit .ironInstance) { b with unit := Function.update b.unit .ironInstance s, serving := none }
  -- a oneshot unit that times out leaves its disk in any state
  | killed {b : Boot P} {u : BootUnit} {n : String} (d : Disk) (hready : Ready b u) (hn : Writes rootDisk b u n) :
      BootStep b (.killed u) { b with
        unit := Function.update b.unit u .failed
        disks := Function.update b.disks n d }

end System

def BootEvent.launch : BootEvent → Option LaunchWorld
  | .manifest W => some W
  | _ => none

/-- The launch parameters that iron-manifest has resolved. -/
def launches (es : List BootEvent) : List LaunchWorld := es.filterMap BootEvent.launch

theorem launches_append (es fs : List BootEvent) : launches (es ++ fs) = launches es ++ launches fs :=
  List.filterMap_append

theorem largest_spec {devices : List BlockDevice} {dev : BlockDevice} (h : largest devices = some dev) :
    dev ∈ devices ∧ ∀ b ∈ devices, b.size ≤ dev.size := by
  induction devices generalizing dev with
  | nil => cases h
  | cons b rest ih =>
    rw [largest] at h
    cases hrest : largest rest with
    | none =>
      rw [hrest] at h
      cases h
      have hnil : rest = [] := by
        cases rest with
        | nil => rfl
        | cons c rest =>
          rw [largest] at hrest
          split at hrest
          · cases hrest
          · split at hrest <;> cases hrest
      subst hnil
      simp
    | some c =>
      rw [hrest] at h
      obtain ⟨hc, hmax⟩ := ih hrest
      simp only at h
      split at h
      · rename_i hge
        cases h
        refine ⟨List.mem_cons_self, ?_⟩
        intro x hx
        rcases List.mem_cons.mp hx with rfl | hx
        · exact Nat.le_refl _
        · have := hmax x hx
          omega
      · rename_i hlt
        cases h
        refine ⟨List.mem_cons_of_mem _ hc, ?_⟩
        intro x hx
        rcases List.mem_cons.mp hx with rfl | hx
        · omega
        · exact hmax x hx

theorem pickDevice_spec {rootDisk : String} {devices : List BlockDevice} {dev : BlockDevice}
    (h : pickDevice rootDisk devices = some dev) :
    dev ∈ devices ∧ dev.fstype = "" ∧ dev.name ≠ rootDisk ∧
      ∀ b ∈ devices, b.fstype = "" → b.name ≠ rootDisk → b.size ≤ dev.size := by
  obtain ⟨hmem, hmax⟩ := largest_spec h
  obtain ⟨hdev, hp⟩ := List.mem_filter.mp hmem
  simp only [Bool.and_eq_true, beq_iff_eq, bne_iff_ne] at hp
  refine ⟨hdev, hp.1, hp.2, ?_⟩
  intro b hb hfs hne
  apply hmax
  simp [hb, hfs, hne]

/-- On a disk without files nothing can be a link of anything. -/
theorem fetchArtifacts_verified {W : World} {A : PinnedArtifacts} {d : Disk}
    (hdistinct : (A.files.map fun e => e.path.text).Nodup) (hempty : ∀ p i, d.node p ≠ some (.file i))
    (hok : (fetchArtifacts W A d).fatal = none) :
    ∀ e ∈ A.files, ∃ bytes, (fetchArtifacts W A d).disk.read e.dest = some bytes ∧ W.sha256sum bytes = e.want := by
  rcases fetchArtifacts_cases W A d with ⟨f, d', hstop⟩ | ⟨-, -, hloop⟩
  · rw [hstop] at hok
    cases hok
  have hsep : Separate (d.mkdirP modelDir).2 A.files := by
    refine List.Pairwise.imp ?_ (List.pairwise_map.mp hdistinct)
    rintro e e' hne (heq | hs)
    · exact hne (ModelFile.dest_injective heq)
    · obtain ⟨i, hi, -⟩ := (d.mkdirP_sameFile _ _ _).mp hs
      exact hempty _ i hi
  rw [hloop] at hok ⊢
  intro e he
  exact verified_iff.mp (fetchAll_verified hsep hok e he)

/-! ## What a step does -/

section Steps
variable {P : Primitives} {I : Image P} {rootDisk : String} {b c : Boot P} {e : BootEvent}

/-- What a step does to the data disk. -/
inductive DataStep (I : Image P) (rootDisk : String) (b : Boot P) (e : BootEvent) (c : Boot P) : Prop where
  | staged {devices : List BlockDevice} {dev : BlockDevice} (he : e = .datadisk devices)
      (hpick : pickDevice rootDisk devices = some dev) (hdata : c.data = some dev.name)
      (hdisk : c.disks dev.name = formatted) (hunit : c.unit .datadisk = .active)
      (hsame : c.unit .artifacts = b.unit .artifacts) (hbefore : b.unit .datadisk = .inactive)
  | unstaged (hbefore : b.unit .datadisk = .inactive) (hunit : c.unit .datadisk = .failed) (hdata : c.data = b.data)
      (hsame : c.unit .artifacts = b.unit .artifacts)
  | fetched {n : String} {W : World} (hsha : W.sha256sum = I.sha256sum) (hbefore : b.unit .artifacts = .inactive)
      (hn : b.data = some n) (hdata : c.data = b.data)
      (hdisk : c.disks n = (fetchArtifacts W I.artifacts (b.disks n)).disk)
      (hunit : c.unit .artifacts = .ofExit (fetchArtifacts W I.artifacts (b.disks n)).fatal)
      (hsame : c.unit .datadisk = b.unit .datadisk)
  | refused (hbefore : b.unit .artifacts = .inactive) (hunit : c.unit .artifacts = .failed) (hdata : c.data = b.data)
      (hsame : c.unit .datadisk = b.unit .datadisk)
  | frame (hdata : c.data = b.data) (hdisk : ∀ n, b.data = some n → n ≠ rootDisk → c.disks n = b.disks n)
      (hdatadisk : c.unit .datadisk = b.unit .datadisk) (hartifacts : c.unit .artifacts = b.unit .artifacts)

theorem data_step (h : BootStep I rootDisk b e c) : DataStep I rootDisk b e c := by
  cases h with
  | datadisk hready hpick => exact .staged rfl hpick rfl (by simp) (by simp) (by simp) hready.1
  | noDisk hready _ => exact .unstaged hready.1 (by simp) rfl (by simp)
  | artifacts hready hdata hsha => exact .fetched hsha hready.1 hdata rfl (by simp) (by simp) (by simp)
  | vllm _ => exact .frame rfl (fun _ _ _ => rfl) (by simp) (by simp)
  | manifest _ _ => exact .frame rfl (fun n _ hne => by simp [hne]) (by simp) (by simp)
  | ironInstance _ _ => exact .frame rfl (fun _ _ _ => rfl) (by simp) (by simp)
  | serve _ _ => exact .frame rfl (fun _ _ _ => rfl) rfl rfl
  | exitVllm _ => exact .frame rfl (fun _ _ _ => rfl) (by simp) (by simp)
  | exitInstance _ => exact .frame rfl (fun _ _ _ => rfl) (by simp) (by simp)
  | @killed u n d hready hn =>
    cases u with
    | datadisk => exact .unstaged hready.1 (by simp) rfl (by simp)
    | artifacts => exact .refused hready.1 (by simp) rfl (by simp)
    | vllm => cases hn
    | manifest =>
      cases hn
      exact .frame rfl (fun n _ hne => by simp [hne]) (by simp) (by simp)
    | ironInstance => cases hn

/-- What a step does to the manifest on the root disk. -/
inductive ManifestStep (I : Image P) (rootDisk : String) (b : Boot P) (e : BootEvent) (c : Boot P) : Prop where
  | resolved {W : LaunchWorld} (he : e = .manifest W) (hsha : W.sha256sum = I.sha256sum)
      (hbefore : b.unit .manifest = .inactive)
      (hunit : c.unit .manifest = .ofExit (fetchManifest W manifestPath (b.disks rootDisk)).fatal)
      (hdisk : c.disks rootDisk = (fetchManifest W manifestPath (b.disks rootDisk)).disk)
  | refused (hbefore : b.unit .manifest = .inactive) (hunit : c.unit .manifest = .failed)
  | frame (hunit : c.unit .manifest = b.unit .manifest) (hdisk : c.disks rootDisk = b.disks rootDisk)
      (he : e.launch = none)

theorem manifest_step (hapart : ∀ n, b.data = some n → n ≠ rootDisk) (h : BootStep I rootDisk b e c) :
    ManifestStep I rootDisk b e c := by
  cases h with
  | @datadisk devices dev _ hpick =>
    have hne := (pickDevice_spec hpick).2.2.1
    exact .frame (by simp) (by simp [hne.symm]) rfl
  | noDisk _ _ => exact .frame (by simp) rfl rfl
  | artifacts _ hdata _ => exact .frame (by simp) (by simp [(hapart _ hdata).symm]) rfl
  | vllm _ => exact .frame (by simp) rfl rfl
  | manifest hready hsha => exact .resolved rfl hsha hready.1 (by simp) (by simp)
  | ironInstance _ _ => exact .frame (by simp) rfl rfl
  | serve _ _ => exact .frame rfl rfl rfl
  | exitVllm _ => exact .frame (by simp) rfl rfl
  | exitInstance _ => exact .frame (by simp) rfl rfl
  | @killed u n d hready hn =>
    cases u with
    | datadisk =>
      obtain ⟨devices, dev, hpick, rfl⟩ := hn
      have hne := (pickDevice_spec hpick).2.2.1
      exact .frame (by simp) (by simp [hne.symm]) rfl
    | artifacts => exact .frame (by simp) (by simp [(hapart _ hn).symm]) rfl
    | vllm => cases hn
    | manifest => exact .refused hready.1 (by simp)
    | ironInstance => cases hn

theorem vllm_step (h : BootStep I rootDisk b e c) (hactive : c.unit .vllm = .active) :
    b.unit .vllm = .active ∨ b.unit .artifacts = .active := by
  cases h with
  | vllm hready => exact .inr (hready.2 _ (by simp [BootUnit.requires]))
  | exitVllm hs => exact absurd (by simpa using hactive) hs
  | @killed u n d hready hn =>
    cases u with
    | vllm => cases hn
    | _ => exact .inl (by simpa using hactive)
  | serve _ _ => exact .inl hactive
  | _ => exact .inl (by simpa using hactive)

/-- How a step can lead to a state in which `p` is being served. -/
inductive ServeStep (I : Image P) (rootDisk : String) (b : Boot P) (C : Config P) (p : ServiceState) : Prop where
  | started {spkiSha256 : Vector UInt8 32} (hready : Ready b .ironInstance)
      (hstart : startConfig I (some manifestPath) (b.disks rootDisk) spkiSha256 = some C) (hp : p = bootState)
  | served {q : ServiceState} {e : ServiceEvent} (hserving : b.serving = some (C, q)) (hstep : ServiceStep C q e p)
  | frame (hserving : b.serving = some (C, p))

theorem serve_step (h : BootStep I rootDisk b e c) {C : Config P} {p : ServiceState}
    (hserving : c.serving = some (C, p)) : ServeStep I rootDisk b C p := by
  cases h with
  | ironInstance hready hstart =>
    obtain ⟨rfl, rfl⟩ := Prod.mk.inj (Option.some.inj hserving)
    exact .started hready hstart rfl
  | serve hs hstep =>
    obtain ⟨rfl, rfl⟩ := Prod.mk.inj (Option.some.inj hserving)
    exact .served hs hstep
  | exitInstance _ => cases hserving
  | _ => exact .frame hserving

end Steps

/-! ## The invariant -/

section Invariant
variable {P : Primitives}

/-- Every pinned file is on the disk with its pinned hash. -/
def Weights (I : Image P) (d : Disk) : Prop :=
  ∀ e ∈ I.artifacts.files, ∃ bytes, d.read e.dest = some bytes ∧ I.sha256sum bytes = e.want

/-- A manifest on the root disk is what the launch parameter names. -/
def Launched (I : Image P) (W : LaunchWorld) (root : Disk) : Prop :=
  ∃ url want, Launch W url want ∧ ∀ bytes, root.read manifestPath = some bytes →
    W.download url = .delivered bytes ∧ I.sha256sum bytes = want

structure Staged (I : Image P) (rootDisk : String) (es : List BootEvent) (b : Boot P) : Prop where
  picked : ∀ n, b.data = some n → ∃ devices dev, .datadisk devices ∈ es ∧
    pickDevice rootDisk devices = some dev ∧ n = dev.name
  unstaged : b.unit .datadisk = .inactive → b.data = none
  empty : b.unit .artifacts = .inactive → ∀ n, b.data = some n → ∀ p i, (b.disks n).node p ≠ some (.file i)
  weights : b.unit .artifacts = .active → ∃ n, b.data = some n ∧ Weights I (b.disks n)

structure Resolved (I : Image P) (rootDisk : String) (es : List BootEvent) (b : Boot P) : Prop where
  before : b.unit .manifest = .inactive → launches es = []
  after : b.unit .manifest = .active → ∃ W, launches es = [W] ∧ Launched I W (b.disks rootDisk)

/-- What the process that is serving has read from the root disk, and how far it is. -/
structure Started (I : Image P) (rootDisk : String) (b : Boot P) (C : Config P) (p : ServiceState) : Prop where
  artifacts : b.unit .artifacts = .active
  manifest : b.unit .manifest = .active
  read : ∃ bytes, (b.disks rootDisk).read manifestPath = some bytes ∧ I.fromBytes bytes = some C.manifest
  run : ∃ es, Run (ServiceStep C) bootState es p

structure BootInvariant (I : Image P) (rootDisk : String) (es : List BootEvent) (b : Boot P) : Prop where
  staged : Staged I rootDisk es b
  resolved : Resolved I rootDisk es b
  vllm : b.unit .vllm = .active → b.unit .artifacts = .active
  started : ∀ C p, b.serving = some (C, p) → Started I rootDisk b C p

variable {I : Image P} {rootDisk : String} {b c : Boot P} {e : BootEvent} {es : List BootEvent}

theorem fetchArtifacts_weights {W : World} {d : Disk} (hsha : W.sha256sum = I.sha256sum)
    (hempty : ∀ p i, d.node p ≠ some (.file i)) (hok : (fetchArtifacts W I.artifacts d).fatal = none) :
    Weights I (fetchArtifacts W I.artifacts d).disk := by
  intro e he
  rw [← hsha]
  exact fetchArtifacts_verified I.distinct hempty hok e he

theorem ofExit_active {f : Option Fatal} (h : UnitState.ofExit f = .active) : f = none := by
  cases f with
  | none => rfl
  | some f => cases h

theorem ofExit_ne_inactive (f : Option Fatal) : UnitState.ofExit f ≠ .inactive := by
  cases f with
  | none => decide
  | some f => exact UnitState.noConfusion

theorem Staged.apart (h : Staged I rootDisk es b) (n : String) (hn : b.data = some n) : n ≠ rootDisk := by
  obtain ⟨devices, dev, -, hpick, rfl⟩ := h.picked n hn
  exact (pickDevice_spec hpick).2.2.1

theorem Staged.step (h : Staged I rootDisk es b) (hstep : BootStep I rootDisk b e c) :
    Staged I rootDisk (es ++ [e]) c := by
  have hpicked : c.data = b.data → ∀ n, c.data = some n → ∃ devices dev, .datadisk devices ∈ es ++ [e] ∧
      pickDevice rootDisk devices = some dev ∧ n = dev.name := by
    intro hdata n hn
    obtain ⟨devices, dev, hmem, hrest⟩ := h.picked n (hdata ▸ hn)
    exact ⟨devices, dev, List.mem_append_left _ hmem, hrest⟩
  cases data_step hstep with
  | @staged devices dev he hpick hdata hdisk hunit hsame hbefore =>
    have hnone := h.unstaged hbefore
    refine ⟨?_, fun hin => ?_, fun _ n hn p i hi => ?_, fun hactive => ?_⟩
    · intro n hn
      rw [hdata] at hn
      cases hn
      exact ⟨devices, dev, by simp [he], hpick, rfl⟩
    · rw [hunit] at hin
      cases hin
    · rw [hdata] at hn
      cases hn
      rw [hdisk] at hi
      exact absurd (formatted.inUse p i hi) (Nat.not_lt_zero _)
    · obtain ⟨n, hn, -⟩ := h.weights (hsame ▸ hactive)
      rw [hnone] at hn
      cases hn
  | unstaged hbefore hunit hdata hsame =>
    have hnone : c.data = none := hdata.trans (h.unstaged hbefore)
    refine ⟨hpicked hdata, fun _ => hnone, fun _ n hn => ?_, fun hactive => ?_⟩
    · rw [hnone] at hn
      cases hn
    · obtain ⟨n, hn, -⟩ := h.weights (hsame ▸ hactive)
      rw [← hdata, hnone] at hn
      cases hn
  | @fetched n W hsha hbefore hn hdata hdisk hunit hsame =>
    refine ⟨hpicked hdata, fun hin => hdata.trans (h.unstaged (hsame ▸ hin)), fun hin => ?_, fun hactive => ?_⟩
    · rw [hunit] at hin
      exact absurd hin (ofExit_ne_inactive _)
    · refine ⟨n, hdata.trans hn, ?_⟩
      rw [hdisk]
      exact fetchArtifacts_weights hsha (h.empty hbefore n hn) (ofExit_active (hunit ▸ hactive))
  | refused hbefore hunit hdata hsame =>
    refine ⟨hpicked hdata, fun hin => hdata.trans (h.unstaged (hsame ▸ hin)), fun hin => ?_, fun hactive => ?_⟩
    · rw [hunit] at hin
      cases hin
    · rw [hunit] at hactive
      cases hactive
  | frame hdata hdisk hdatadisk hartifacts =>
    refine ⟨hpicked hdata, fun hin => hdata.trans (h.unstaged (hdatadisk ▸ hin)), fun hin n hn => ?_, fun hactive => ?_⟩
    · rw [hdata] at hn
      rw [hdisk n hn (h.apart n hn)]
      exact h.empty (hartifacts ▸ hin) n hn
    · obtain ⟨n, hn, hweights⟩ := h.weights (hartifacts ▸ hactive)
      refine ⟨n, hdata.trans hn, ?_⟩
      rw [hdisk n hn (h.apart n hn)]
      exact hweights

theorem fetchManifest_launched {W : LaunchWorld} {d : Disk} (hsha : W.sha256sum = I.sha256sum)
    (hok : (fetchManifest W manifestPath d).fatal = none) :
    Launched I W (fetchManifest W manifestPath d).disk := by
  obtain ⟨url, want, bytes, tmp, hlaunch, hdelivered, hwant, -, hfile, hdir⟩ := fetchManifest_ok hok
  refine ⟨url, want, hlaunch, fun bytes' hread => ?_⟩
  by_cases hout : d.node manifestPath = some .dir
  · rw [hdir hout] at hread
    cases hread
  · rw [installTarget, if_neg hout, hread] at hfile
    cases hfile
    exact ⟨hdelivered, hsha ▸ hwant⟩

theorem Resolved.step (h : Resolved I rootDisk es b) (hapart : ∀ n, b.data = some n → n ≠ rootDisk)
    (hstep : BootStep I rootDisk b e c) : Resolved I rootDisk (es ++ [e]) c := by
  cases manifest_step hapart hstep with
  | @resolved W he hsha hbefore hunit hdisk =>
    refine ⟨fun hin => ?_, fun hactive => ⟨W, ?_, ?_⟩⟩
    · rw [hunit] at hin
      exact absurd hin (ofExit_ne_inactive _)
    · rw [launches_append, h.before hbefore, he]
      rfl
    · rw [hdisk]
      exact fetchManifest_launched hsha (ofExit_active (hunit ▸ hactive))
  | refused hbefore hunit =>
    refine ⟨fun hin => ?_, fun hactive => ?_⟩
    · rw [hunit] at hin
      cases hin
    · rw [hunit] at hactive
      cases hactive
  | frame hunit hdisk he =>
    have hsame : launches (es ++ [e]) = launches es := by simp [launches, he]
    refine ⟨fun hin => hsame.trans (h.before (hunit ▸ hin)), fun hactive => ?_⟩
    rw [hsame, hdisk]
    exact h.after (hunit ▸ hactive)

theorem artifacts_stay (hstep : BootStep I rootDisk b e c) (h : b.unit .artifacts = .active) :
    c.unit .artifacts = .active := by
  cases data_step hstep with
  | staged _ _ _ _ _ hsame _ => exact hsame.trans h
  | unstaged _ _ _ hsame => exact hsame.trans h
  | fetched _ hbefore _ _ _ _ _ =>
    rw [h] at hbefore
    cases hbefore
  | refused hbefore _ _ _ =>
    rw [h] at hbefore
    cases hbefore
  | frame _ _ _ hartifacts => exact hartifacts.trans h

theorem manifest_stays (hapart : ∀ n, b.data = some n → n ≠ rootDisk) (hstep : BootStep I rootDisk b e c)
    (h : b.unit .manifest = .active) : c.unit .manifest = .active ∧ c.disks rootDisk = b.disks rootDisk := by
  cases manifest_step hapart hstep with
  | resolved _ _ hbefore _ _ =>
    rw [h] at hbefore
    cases hbefore
  | refused hbefore _ =>
    rw [h] at hbefore
    cases hbefore
  | frame hunit hdisk _ => exact ⟨hunit.trans h, hdisk⟩

theorem startConfig_some {root : Disk} {path : Path} {spkiSha256 : Vector UInt8 32} {C : Config P}
    (h : startConfig I (some path) root spkiSha256 = some C) :
    ∃ bytes, root.read path = some bytes ∧ I.fromBytes bytes = some C.manifest := by
  simp only [startConfig, Option.bind_eq_bind, Option.bind_eq_some_iff] at h
  obtain ⟨bytes, hread, manifest, hparse, hC⟩ := h
  cases hC
  exact ⟨bytes, hread, hparse⟩

theorem Started.step (hstep : BootStep I rootDisk b e c) (hapart : ∀ n, b.data = some n → n ≠ rootDisk)
    {C : Config P} {p q : ServiceState} (h : Started I rootDisk b C p) (hrun : ∃ es, Run (ServiceStep C) p es q) :
    Started I rootDisk c C q := by
  obtain ⟨hmanifest, hdisk⟩ := manifest_stays hapart hstep h.manifest
  obtain ⟨ses, hses⟩ := h.run
  obtain ⟨more, hmore⟩ := hrun
  refine ⟨artifacts_stay hstep h.artifacts, hmanifest, ?_, ses ++ more, hses.append hmore⟩
  rw [hdisk]
  exact h.read

theorem bootInvariant_powerOn (disks : String → Disk) : BootInvariant I rootDisk [] (powerOn disks : Boot P) where
  staged := ⟨fun n hn => (by cases hn), fun _ => rfl, fun _ n hn => (by cases hn), fun h => (by cases h)⟩
  resolved := ⟨fun _ => rfl, fun h => (by cases h)⟩
  vllm := fun h => (by cases h)
  started := fun C p h => (by cases h)

theorem BootInvariant.step (h : BootInvariant I rootDisk es b) (hstep : BootStep I rootDisk b e c) :
    BootInvariant I rootDisk (es ++ [e]) c where
  staged := h.staged.step hstep
  resolved := h.resolved.step h.staged.apart hstep
  vllm := by
    intro hactive
    rcases vllm_step hstep hactive with hvllm | hartifacts
    · exact artifacts_stay hstep (h.vllm hvllm)
    · exact artifacts_stay hstep hartifacts
  started := by
    intro C p hserving
    have hapart := h.staged.apart
    cases serve_step hstep hserving with
    | started hready hstart hp =>
      subst hp
      have hvllm : b.unit .vllm = .active := hready.2 _ (by simp [BootUnit.requires])
      have hmanifest : b.unit .manifest = .active := hready.2 _ (by simp [BootUnit.requires])
      have hstarted : Started I rootDisk b C bootState :=
        ⟨h.vllm hvllm, hmanifest, startConfig_some hstart, [], .nil _⟩
      exact hstarted.step hstep hapart ⟨[], .nil _⟩
    | @served q e' hq hservice => exact (h.started C q hq).step hstep hapart ⟨[e'], .single hservice⟩
    | frame hp => exact (h.started C p hp).step hstep hapart ⟨[], .nil _⟩

theorem bootInvariant_run {disks : String → Disk} (h : Run (BootStep I rootDisk) (powerOn disks) es b) :
    BootInvariant I rootDisk es b :=
  h.reverseInduction (P := fun es b => BootInvariant I rootDisk es b) (bootInvariant_powerOn disks)
    fun _ hstep ih => ih.step hstep

/-- Whatever the disks held at power-on and whatever the network, the metadata service
and the host did since: a serving instance has its weights and its manifest checked,
and only the members of that manifest on it. -/
theorem served_only_verified {disks : String → Disk} (h : Run (BootStep I rootDisk) (powerOn disks) es b)
    {C : Config P} {p : ServiceState} (hserving : b.serving = some (C, p)) :
    -- the weights: on the largest disk without a file system that is not the root disk
    (∃ devices dev, .datadisk devices ∈ es ∧ dev ∈ devices ∧ dev.fstype = "" ∧ dev.name ≠ rootDisk ∧
      (∀ x ∈ devices, x.fstype = "" → x.name ≠ rootDisk → x.size ≤ dev.size) ∧
      ∀ f ∈ I.artifacts.files, ∃ bytes, (b.disks dev.name).read f.dest = some bytes ∧ I.sha256sum bytes = f.want) ∧
    -- the manifest: the bytes whose hash came with the one launch parameter
    (∃ W url want bytes, launches es = [W] ∧ Launch W url want ∧ W.download url = .delivered bytes ∧
      I.sha256sum bytes = want ∧ (b.disks rootDisk).read manifestPath = some bytes ∧
      I.fromBytes bytes = some C.manifest) ∧
    Authorised C.manifest p := by
  have hinv := bootInvariant_run h
  have hstarted := hinv.started C p hserving
  refine ⟨?_, ?_, ?_⟩
  · obtain ⟨n, hn, hweights⟩ := hinv.staged.weights hstarted.artifacts
    obtain ⟨devices, dev, hmem, hpick, rfl⟩ := hinv.staged.picked n hn
    obtain ⟨hdev, hfs, hne, hmax⟩ := pickDevice_spec hpick
    exact ⟨devices, dev, hmem, hdev, hfs, hne, hmax, hweights⟩
  · obtain ⟨W, hW, url, want, hlaunch, hbytes⟩ := hinv.resolved.after hstarted.manifest
    obtain ⟨bytes, hread, hparse⟩ := hstarted.read
    obtain ⟨hdelivered, hsha⟩ := hbytes bytes hread
    exact ⟨W, url, want, bytes, hW, hlaunch, hdelivered, hsha, hread, hparse⟩
  · obtain ⟨ses, hses⟩ := hstarted.run
    exact authorised_run hses

end Invariant

/-- A boot in which both scripts exit 0 and the manifest parses comes to serve. -/
theorem boot_serves {P : Primitives} {I : Image P} {rootDisk : String} {disks : String → Disk}
    {devices : List BlockDevice} {dev : BlockDevice} {W : World} {L : LaunchWorld} {spkiSha256 : Vector UInt8 32}
    {C : Config P} (hpick : pickDevice rootDisk devices = some dev) (hW : W.sha256sum = I.sha256sum)
    (hartifacts : (fetchArtifacts W I.artifacts formatted).fatal = none) (hL : L.sha256sum = I.sha256sum)
    (hmanifest : (fetchManifest L manifestPath (disks rootDisk)).fatal = none)
    (hstart : startConfig I (some manifestPath) (fetchManifest L manifestPath (disks rootDisk)).disk spkiSha256 = some C) :
    ∃ b, Run (BootStep I rootDisk) (powerOn disks)
      [.datadisk devices, .artifacts W, .vllm, .manifest L, .ironInstance] b ∧ b.serving = some (C, bootState) := by
  have hne := (pickDevice_spec hpick).2.2.1.symm
  refine ⟨_, .cons (.datadisk ⟨rfl, by simp [BootUnit.requires]⟩ hpick)
    (.cons (.artifacts ⟨by simp [powerOn], by simp [BootUnit.requires]⟩ rfl hW)
    (.cons (.vllm ⟨by simp [powerOn], ?_⟩)
    (.cons (.manifest ⟨by simp [powerOn], by simp [BootUnit.requires]⟩ hL)
    (.single (@BootStep.ironInstance _ _ _ _ spkiSha256 C ⟨by simp [powerOn], ?_⟩ ?_))))), rfl⟩
  · simp [BootUnit.requires, hartifacts, UnitState.ofExit]
  · simp [BootUnit.requires, powerOn, hmanifest, hne, UnitState.ofExit]
  · simpa [powerOn, hne] using hstart

/-- The service runs on inside the boot. -/
theorem serve_run {P : Primitives} {I : Image P} {rootDisk : String} {C : Config P} {p q : ServiceState}
    {es : List ServiceEvent} (h : Run (ServiceStep C) p es q) {b : Boot P} (hserving : b.serving = some (C, p)) :
    Run (BootStep I rootDisk) b (es.map .serve) { b with serving := some (C, q) } := by
  induction h generalizing b with
  | nil p =>
    rw [← hserving]
    exact .nil b
  | cons hstep _ ih => exact .cons (.serve hserving hstep) (ih rfl)

namespace Launching

def world : World := { TwoFiles.world with sha256sum := sha256sum }

def image : Image Synthetic.primitives where
  artifacts := TwoFiles.artifacts
  anchors := Synthetic.anchors
  sha256sum := sha256sum
  fromBytes bytes := if bytes = manifest then some Synthetic.manifest else none
  distinct := TwoFiles.distinct

def devices : List BlockDevice := [⟨"vda", 40, ""⟩, ⟨"nvme0n1", 600, ""⟩, ⟨"nvme1n1", 900, "ext4"⟩]

theorem artifacts_ok : (fetchArtifacts world TwoFiles.artifacts formatted).fatal = none := by decide +kernel

theorem manifest_done : (fetchManifest launchWorld manifestPath rootFs).fatal = none ∧
    (fetchManifest launchWorld manifestPath rootFs).disk.read manifestPath = some manifest := by
  have hok : (fetchManifest launchWorld manifestPath rootFs).fatal = none :=
    fetchManifest_of launched userData_ne_empty download_manifest manifest_digest installable_rootFs
  obtain ⟨url, want, bytes, tmp, -, hdelivered, -, -, hfile, -⟩ := fetchManifest_ok hok
  have hout : rootFs.node manifestPath ≠ some .dir := by decide +kernel
  rw [installTarget, if_neg hout, delivered_manifest hdelivered] at hfile
  exact ⟨hok, hfile⟩

theorem startConfig_eq : startConfig image (some manifestPath) (fetchManifest launchWorld manifestPath rootFs).disk
    (Vector.replicate 32 9) = some Synthetic.config := by
  simp only [startConfig, manifest_done.2, image, Option.bind_eq_bind, Option.bind_some, if_true, Synthetic.config]

theorem run_serving : ∃ b, Run (BootStep image "vda") (powerOn fun _ => rootFs)
    [.datadisk devices, .artifacts world, .vllm, .manifest launchWorld, .ironInstance] b ∧
    b.serving = some (Synthetic.config, bootState) := by
  have hpick : pickDevice "vda" devices = some ⟨"nvme0n1", 600, ""⟩ := by decide +kernel
  exact boot_serves hpick rfl artifacts_ok rfl manifest_done.1 startConfig_eq

/-- The one member enrols once the service is up. -/
theorem run_enrolled : ∃ es b p, Run (BootStep image "vda") (powerOn fun _ => rootFs) es b ∧
    b.serving = some (Synthetic.config, p) ∧
    p.shared.store.getByToken (b64urlNopad (Vector.replicate 32 0).toList) =
      some (Synthetic.entry (Vector.replicate 32 0)) := by
  obtain ⟨b, hboot, hserving⟩ := run_serving
  obtain ⟨es, p, hrun, -, hs, -⟩ := Synthetic.serve 1 (.enroll Synthetic.now Synthetic.request) rfl
    Synthetic.connected_conns
    (Synthetic.follows_enroll (Vector.replicate 32 0)) (Synthetic.performs_enroll _ _)
  refine ⟨_, _, p, hboot.append (serve_run (Synthetic.run_connected.append hrun) hserving), rfl, ?_⟩
  rw [hs]
  exact Inner.getByToken_insert _ _

end Launching

theorem served_only_verified_first_boot :
    ∃ es b p entry, Run (BootStep Launching.image "vda") (powerOn fun _ => Launching.rootFs) es b ∧
      b.serving = some (Synthetic.config, p) ∧
      (∃ W url want bytes, launches es = [W] ∧ Launch W url want ∧ W.download url = .delivered bytes ∧
        Launching.sha256sum bytes = want ∧ (b.disks "vda").read manifestPath = some bytes ∧
        Launching.image.fromBytes bytes = some Synthetic.manifest) ∧
      p.shared.store.getByToken (b64urlNopad (Vector.replicate 32 0).toList) = some entry ∧
      Synthetic.manifest.containsPair entry.clientPubkey entry.memberHash = true := by
  obtain ⟨es, b, p, hrun, hserving, hentry⟩ := Launching.run_enrolled
  obtain ⟨-, hlaunch, hauthorised⟩ := served_only_verified hrun hserving
  obtain ⟨-, m, hm, hhash⟩ := Inner.member_of_getByToken hentry
  refine ⟨es, b, p, _, hrun, hserving, hlaunch, hentry, ?_⟩
  rw [← hhash]
  exact hauthorised.stored _ m hm

end IronInstance
