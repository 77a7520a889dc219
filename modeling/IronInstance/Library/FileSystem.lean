import Mathlib.Data.List.Infix
import Mathlib.Logic.Function.Basic

/-!
# A small file system

Directories and regular files below one root. A file is an inode, so two paths may
be hard links of one file and a write through one of them shows through the other.
`Touches p` is what a write to the path `p` may do to the rest of the disk. `Files` is
what a script sees of a file system, whichever it is, and `LawfulFiles` what it may rely
on; `Affects p` composes, so a longer script on `p` is bounded by it as well.
-/

namespace FileSystem
set_option autoImplicit false

abbrev Path := List String

abbrev Bytes := List UInt8

inductive Node where
  | dir
  | file (inode : Nat)
  deriving DecidableEq

/-- Inodes in use are below `next`. -/
structure Disk where
  node : Path → Option Node
  content : Nat → Bytes
  next : Nat
  inUse : ∀ p i, node p = some (.file i) → i < next

namespace Disk

def isFile (d : Disk) (p : Path) : Bool :=
  match d.node p with
  | some (.file _) => true
  | _ => false

def read (d : Disk) (p : Path) : Option Bytes :=
  match d.node p with
  | some (.file i) => some (d.content i)
  | _ => none

def addDir (d : Disk) (p : Path) : Disk where
  node := fun q => if q = p ∧ d.node p = none then some .dir else d.node q
  content := d.content
  next := d.next
  inUse := by
    intro q i h
    split at h
    · cases h
    · exact d.inUse q i h

/-- `mkdir` along a list of paths; it stops at one that is a file. -/
def mkdirAll (d : Disk) : List Path → Bool × Disk
  | [] => (true, d)
  | p :: ps => if d.isFile p then (false, d) else mkdirAll (d.addDir p) ps

def mkdirP (d : Disk) (p : Path) : Bool × Disk := d.mkdirAll p.inits

def setContent (d : Disk) (i : Nat) (bytes : Bytes) : Disk :=
  { d with content := Function.update d.content i bytes }

def create (d : Disk) (p : Path) (bytes : Bytes) : Disk where
  node := Function.update d.node p (some (.file d.next))
  content := Function.update d.content d.next bytes
  next := d.next + 1
  inUse := by
    intro q i h
    by_cases hq : q = p
    · subst hq
      simp only [Function.update_self, Option.some.injEq, Node.file.injEq] at h
      omega
    · rw [Function.update_of_ne hq] at h
      have := d.inUse q i h
      omega

/-- Open for writing and write: in place if the file is there. -/
def write (d : Disk) (p : Path) (bytes : Bytes) : Bool × Disk :=
  match d.node p with
  | some .dir => (false, d)
  | some (.file i) => (true, d.setContent i bytes)
  | none => if d.node p.dropLast = some .dir then (true, d.create p bytes) else (false, d)

def unlink (d : Disk) (p : Path) : Disk where
  node := Function.update d.node p none
  content := d.content
  next := d.next
  inUse := by
    intro q i h
    by_cases hq : q = p
    · subst hq
      simp at h
    · rw [Function.update_of_ne hq] at h
      exact d.inUse q i h

def SameFile (d : Disk) (p q : Path) : Prop :=
  ∃ i, d.node p = some (.file i) ∧ d.node q = some (.file i)

theorem read_eq_some {d : Disk} {p : Path} {bytes : Bytes} :
    d.read p = some bytes ↔ ∃ i, d.node p = some (.file i) ∧ d.content i = bytes := by
  unfold read
  rcases d.node p with _ | _ | i <;> simp

theorem isFile_iff {d : Disk} {p : Path} : d.isFile p = true ↔ ∃ i, d.node p = some (.file i) := by
  unfold isFile
  rcases d.node p with _ | _ | i <;> simp

end Disk

open Disk

theorem not_prefix_dropLast {p : Path} (h : p ≠ []) : ¬ p <+: p.dropLast := by
  intro hpre
  have hle := hpre.length_le
  have hpos := List.length_pos_iff.mpr h
  rw [List.length_dropLast] at hle
  omega

/-- What adding one directory keeps, adding directories keeps. -/
theorem Disk.mkdirAll_induct {P : Disk → Prop} (hadd : ∀ d r, P d → P (d.addDir r)) {d : Disk} (hd : P d)
    (qs : List Path) : P (d.mkdirAll qs).2 := by
  induction qs generalizing d with
  | nil => exact hd
  | cons r qs ih =>
    rw [Disk.mkdirAll]
    split
    · exact hd
    · exact ih (hadd d r hd)

theorem Disk.addDir_files (d : Disk) (r q : Path) (i : Nat) :
    (d.addDir r).node q = some (.file i) ↔ d.node q = some (.file i) := by
  simp only [Disk.addDir]
  split
  · rename_i h
    simp [h.1, h.2]
  · rfl

theorem Disk.mkdirAll_files (d : Disk) (qs : List Path) (q : Path) (i : Nat) :
    (d.mkdirAll qs).2.node q = some (.file i) ↔ d.node q = some (.file i) :=
  Disk.mkdirAll_induct (P := fun d' => d'.node q = some (.file i) ↔ d.node q = some (.file i))
    (fun d' r h => (d'.addDir_files r q i).trans h) Iff.rfl qs

theorem Disk.mkdirAll_content (d : Disk) (qs : List Path) : (d.mkdirAll qs).2.content = d.content :=
  Disk.mkdirAll_induct (P := fun d' => d'.content = d.content) (fun _ _ h => h) rfl qs

theorem Disk.mkdirP_read (d : Disk) (p q : Path) : (d.mkdirP p).2.read q = d.read q := by
  refine Option.ext fun bytes => ?_
  simp only [read_eq_some, Disk.mkdirP, mkdirAll_files, mkdirAll_content]

theorem Disk.mkdirP_sameFile (d : Disk) (p q r : Path) : (d.mkdirP p).2.SameFile q r ↔ d.SameFile q r := by
  simp only [SameFile, Disk.mkdirP, mkdirAll_files]

/-- Only directories of the list are new. -/
theorem Disk.mkdirAll_node (d : Disk) (ps : List Path) (q : Path) :
    (d.mkdirAll ps).2.node q = d.node q ∨
      (q ∈ ps ∧ d.node q = none ∧ (d.mkdirAll ps).2.node q = some .dir) := by
  induction ps generalizing d with
  | nil => exact .inl rfl
  | cons p ps ih =>
    rw [Disk.mkdirAll]
    split
    · exact .inl rfl
    have hadd : (d.addDir p).node q = if q = p ∧ d.node p = none then some .dir else d.node q := rfl
    rcases ih (d.addDir p) with hsame | ⟨hmem, hnone, hdir⟩
    · rw [hsame, hadd]
      split
      · rename_i hq
        exact .inr ⟨by simp [hq.1], hq.1 ▸ hq.2, rfl⟩
      · exact .inl rfl
    · rw [hadd] at hnone
      split at hnone
      · cases hnone
      · exact .inr ⟨List.mem_cons_of_mem _ hmem, hnone, hdir⟩

/-- Where no path of the list is a file, each of them is there afterwards. -/
theorem Disk.mkdirAll_ok {d : Disk} {ps : List Path} (h : ∀ p ∈ ps, d.isFile p = false) :
    (d.mkdirAll ps).1 = true ∧
      ∀ q, (d.mkdirAll ps).2.node q = if q ∈ ps ∧ d.node q = none then some .dir else d.node q := by
  induction ps generalizing d with
  | nil => simp [Disk.mkdirAll]
  | cons p ps ih =>
    have hkeep : ∀ r ∈ ps, (d.addDir p).isFile r = false := by
      intro r hr
      have hold := h r (List.mem_cons_of_mem _ hr)
      rw [← Bool.not_eq_true, isFile_iff] at hold ⊢
      rintro ⟨i, hi⟩
      exact hold ⟨i, (d.addDir_files p r i).mp hi⟩
    obtain ⟨hok, hnode⟩ := ih hkeep
    rw [Disk.mkdirAll, h p List.mem_cons_self]
    refine ⟨hok, fun q => ?_⟩
    simp only [Bool.false_eq_true, if_false, hnode q, List.mem_cons]
    by_cases hq : q = p
    · subst hq
      cases hd : d.node q with
      | none => simp [Disk.addDir, hd]
      | some n => simp [Disk.addDir, hd]
    · simp [Disk.addDir, hq]

theorem Disk.unlink_read_of_ne (d : Disk) {p q : Path} (h : q ≠ p) : (d.unlink p).read q = d.read q := by
  simp [Disk.read, Disk.unlink, h]

theorem Disk.unlink_read_self (d : Disk) (p : Path) : (d.unlink p).read p = none := by
  simp [Disk.read, Disk.unlink]

theorem Disk.create_read_self (d : Disk) (p : Path) (bytes : Bytes) : (d.create p bytes).read p = some bytes := by
  simp [Disk.read, Disk.create]

theorem Disk.create_read_of_ne (d : Disk) {p q : Path} (bytes : Bytes) (h : q ≠ p) :
    (d.create p bytes).read q = d.read q := by
  simp only [Disk.read, Disk.create, Function.update_of_ne h]
  cases hq : d.node q with
  | none => rfl
  | some n =>
    cases n with
    | dir => rfl
    | file i =>
      have hne : i ≠ d.next := Nat.ne_of_lt (d.inUse q i hq)
      simp [hne]

theorem Disk.create_not_sameFile (d : Disk) {p q : Path} (bytes : Bytes) (h : q ≠ p) :
    ¬ (d.create p bytes).SameFile p q := by
  rintro ⟨i, hp, hq⟩
  simp only [Disk.create, Function.update_self, Option.some.injEq, Node.file.injEq] at hp
  simp only [Disk.create, Function.update_of_ne h] at hq
  have hold := d.inUse q i hq
  omega

theorem Disk.write_read_self {d d' : Disk} {p : Path} {bytes : Bytes} (h : d.write p bytes = (true, d')) :
    d'.read p = some bytes := by
  unfold Disk.write at h
  cases hp : d.node p with
  | none =>
    rw [hp] at h
    simp only at h
    split at h
    · cases h
      exact d.create_read_self p bytes
    · cases h
  | some n =>
    rw [hp] at h
    cases n with
    | dir => cases h
    | file i =>
      cases h
      simp [Disk.read, Disk.setContent, hp]

/-- What a write to `p` may do: no other file appears or goes, other files keep
their bytes unless they are links of the file at `p`, and `p` keeps its inode or gets
a new one. -/
structure Touches (p : Path) (d d' : Disk) : Prop where
  files : ∀ q i, q ≠ p → (d'.node q = some (.file i) ↔ d.node q = some (.file i))
  content : ∀ q i, q ≠ p → d.node q = some (.file i) → ¬ d.SameFile p q → d'.content i = d.content i
  inode : ∀ i, d'.node p = some (.file i) → d.node p = some (.file i) ∨ d.next ≤ i

namespace Touches
variable {p q : Path} {d d' d'' : Disk}

theorem refl (p : Path) (d : Disk) : Touches p d d :=
  ⟨fun _ _ _ => Iff.rfl, fun _ _ _ _ _ => rfl, fun _ h => .inl h⟩

theorem sameFile (h : Touches p d d') (hq : q ≠ p) (hs : d'.SameFile p q) : d.SameFile p q := by
  obtain ⟨i, hp, hqi⟩ := hs
  have hold := (h.files q i hq).mp hqi
  rcases h.inode i hp with hp | hnew
  · exact ⟨i, hp, hold⟩
  · have := d.inUse q i hold
    omega

theorem read_eq (h : Touches p d d') (hq : q ≠ p) (hs : ¬ d.SameFile p q) : d'.read q = d.read q := by
  refine Option.ext fun bytes => ?_
  rw [read_eq_some, read_eq_some]
  constructor
  · rintro ⟨i, hi, rfl⟩
    have hold := (h.files q i hq).mp hi
    exact ⟨i, hold, (h.content q i hq hold hs).symm⟩
  · rintro ⟨i, hi, rfl⟩
    exact ⟨i, (h.files q i hq).mpr hi, h.content q i hq hi hs⟩

theorem write (p : Path) (d : Disk) (bytes : Bytes) : Touches p d (d.write p bytes).2 := by
  unfold Disk.write
  cases hp : d.node p with
  | none =>
    simp only
    split
    · refine ⟨fun q i hq => by simp [Disk.create, hq], ?_, ?_⟩
      · intro q i _ hqi _
        have hne : i ≠ d.next := Nat.ne_of_lt (d.inUse q i hqi)
        simp [Disk.create, hne]
      · intro i hi
        simp only [Disk.create, Function.update_self, Option.some.injEq, Node.file.injEq] at hi
        exact .inr hi.le
    · exact refl p d
  | some n =>
    cases n with
    | dir => exact refl p d
    | file j =>
      refine ⟨fun _ _ _ => Iff.rfl, ?_, fun i hi => .inl hi⟩
      intro q i _ hqi hs
      have hne : i ≠ j := by
        rintro rfl
        exact hs ⟨i, hp, hqi⟩
      simp [Disk.setContent, hne]

end Touches

/-! ## The file system a script sees -/

/-- The calls of a script, and which paths lead to one and the same file. -/
class Files (δ : Type) where
  read : δ → Path → Option Bytes
  mkdirP : δ → Path → Bool × δ
  write : δ → Path → Bytes → Bool × δ
  unlink : δ → Path → δ
  Same : δ → Path → Path → Prop

open Files

class LawfulFiles (δ : Type) [Files δ] : Prop where
  same_symm : ∀ (d : δ) p q, Same d p q → Same d q p
  mkdirP_read : ∀ (d : δ) p q, read (mkdirP d p).2 q = read d q
  mkdirP_same : ∀ (d : δ) p q r, Same (mkdirP d p).2 q r → Same d q r
  write_other : ∀ (d : δ) p bytes q, ¬ Same d p q → read (write d p bytes).2 q = read d q
  write_same : ∀ (d : δ) p bytes q r, Same (write d p bytes).2 q r → Same d q r
  write_ok : ∀ (d : δ) p bytes, (write d p bytes).1 = true → read (write d p bytes).2 p = some bytes
  write_failed : ∀ (d : δ) p bytes, (write d p bytes).1 = false → read (write d p bytes).2 p = none
  unlink_self : ∀ (d : δ) p, read (unlink d p) p = none

/-- What an operation on `p` may do in any file system: only what leads to the same file
reads differently afterwards, and no two paths come to lead to one file. -/
structure Affects {δ : Type} [Files δ] (p : Path) (d d' : δ) : Prop where
  read : ∀ q, ¬ Same d p q → Files.read d' q = Files.read d q
  same : ∀ q r, Same d' q r → Same d q r

namespace Affects
variable {δ : Type} [Files δ] {p : Path} {d d' d'' : δ}

theorem refl (p : Path) (d : δ) : Affects p d d := ⟨fun _ _ => rfl, fun _ _ h => h⟩

theorem trans (h : Affects p d d') (h' : Affects p d' d'') : Affects p d d'' where
  read := fun q hq => (h'.read q fun hs => hq (h.same p q hs)).trans (h.read q hq)
  same := fun q r hs => h.same q r (h'.same q r hs)

variable [LawfulFiles δ]

theorem mkdirP (p q : Path) (d : δ) : Affects p d (mkdirP d q).2 :=
  ⟨fun r _ => LawfulFiles.mkdirP_read d q r, LawfulFiles.mkdirP_same d q⟩

theorem write (p : Path) (d : δ) (bytes : Bytes) : Affects p d (write d p bytes).2 :=
  ⟨LawfulFiles.write_other d p bytes, LawfulFiles.write_same d p bytes⟩

end Affects

instance : Files Disk where
  read := Disk.read
  mkdirP := Disk.mkdirP
  write := Disk.write
  unlink := Disk.unlink
  Same d p q := p = q ∨ d.SameFile p q

@[simp] theorem Disk.files_read (d : Disk) (p : Path) : Files.read d p = d.read p := rfl

@[simp] theorem Disk.files_mkdirP (d : Disk) (p : Path) : Files.mkdirP d p = d.mkdirP p := rfl

@[simp] theorem Disk.files_write (d : Disk) (p : Path) (bytes : Bytes) : Files.write d p bytes = d.write p bytes := rfl

@[simp] theorem Disk.files_unlink (d : Disk) (p : Path) : Files.unlink d p = d.unlink p := rfl

theorem Disk.write_sameFile (d : Disk) (p : Path) (bytes : Bytes) {q r : Path} (h : (d.write p bytes).2.SameFile q r) :
    q = r ∨ d.SameFile q r := by
  obtain ⟨i, hq, hr⟩ := h
  have ht := Touches.write p d bytes
  by_cases hqp : q = p
  · subst hqp
    by_cases hrq : r = q
    · exact .inl hrq.symm
    · exact .inr (ht.sameFile hrq ⟨i, hq, hr⟩)
  · have hold := (ht.files q i hqp).mp hq
    by_cases hrp : r = p
    · subst hrp
      obtain ⟨j, hj, hj'⟩ := ht.sameFile hqp ⟨i, hr, hq⟩
      exact .inr ⟨j, hj', hj⟩
    · exact .inr ⟨i, hold, (ht.files r i hrp).mp hr⟩

theorem Disk.write_failed {d : Disk} {p : Path} {bytes : Bytes} (h : (d.write p bytes).1 = false) :
    (d.write p bytes).2.read p = none := by
  unfold Disk.write at h ⊢
  rcases hp : d.node p with _ | _ | i
  · simp only [hp] at h ⊢
    split at h
    · cases h
    · rename_i hparent
      simp [hparent, Disk.read, hp]
  · simp [Disk.read, hp]
  · simp [hp] at h

instance : LawfulFiles Disk where
  same_symm := by
    rintro d p q (rfl | ⟨i, hp, hq⟩)
    · exact .inl rfl
    · exact .inr ⟨i, hq, hp⟩
  mkdirP_read := Disk.mkdirP_read
  mkdirP_same := by
    rintro d p q r (rfl | h)
    · exact .inl rfl
    · exact .inr ((d.mkdirP_sameFile p q r).mp h)
  write_other := by
    intro d p bytes q h
    have hs : ¬ d.SameFile p q := fun hs => h (.inr hs)
    exact (Touches.write p d bytes).read_eq (fun hq => h (.inl hq.symm)) hs
  write_same := by
    rintro d p bytes q r (rfl | h)
    · exact .inl rfl
    · exact d.write_sameFile p bytes h
  write_ok := fun d p bytes h => Disk.write_read_self (Prod.ext h rfl)
  write_failed := fun _ _ _ h => Disk.write_failed h
  unlink_self := Disk.unlink_read_self

end FileSystem
