import IronInstance.Library.FileSystem

/-!
# Symbolic links

A `Volume` is a disk with symbolic links on it. A link points to a path, written from
the root and without `.` and `..`; a path that leads out of the volume is a path like
any other. Reading and writing follow links, the last component included, while removing
acts on the directory entry itself. The place a path leads to depends on the links
alone, so as long as none is removed the paths keep their places.
-/

namespace FileSystem
set_option autoImplicit false

/-- The path with its first link replaced by what it points to, if there is one; `cur`
has been walked already. -/
def expand (link : Path → Option Path) (cur : Path) : Path → Option Path
  | [] => none
  | c :: rest =>
    match link (cur ++ [c]) with
    | some target => some (target ++ rest)
    | none => expand link (cur ++ [c]) rest

/-- Where a path leads when at most `n` links are followed. -/
def follow (link : Path → Option Path) : Nat → Path → Option Path
  | 0, p =>
    match expand link [] p with
    | none => some p
    | some _ => none
  | n + 1, p =>
    match expand link [] p with
    | none => some p
    | some q => follow link n q

/-- The limit of the kernel on the links of one path. -/
def maxLinks : Nat := 40

theorem update_none_of_none {link : Path → Option Path} {x a : Path} (h : link a = none) :
    Function.update link x none a = none := by
  by_cases hax : a = x
  · simp [hax]
  · rw [Function.update_of_ne hax, h]

section Paths
variable {link : Path → Option Path} {cur p q r : Path} {n : Nat}

theorem expand_none_iff : expand link cur p = none ↔ ∀ a, a ≠ [] → a <+: p → link (cur ++ a) = none := by
  induction p generalizing cur with
  | nil =>
    refine ⟨fun _ a hne hpre => ?_, fun _ => rfl⟩
    exact absurd (List.prefix_nil.mp hpre) hne
  | cons c rest ih =>
    rw [expand]
    constructor
    · intro h a hne hpre
      cases a with
      | nil => exact absurd rfl hne
      | cons x a =>
        obtain ⟨rfl, hrest⟩ := List.cons_prefix_cons.mp hpre
        cases hlink : link (cur ++ [x]) with
        | some target =>
          rw [hlink] at h
          cases h
        | none =>
          rw [hlink] at h
          by_cases ha : a = []
          · subst ha
            exact hlink
          · have := ih.mp h a ha hrest
            rwa [List.append_assoc, List.singleton_append] at this
    · intro h
      have hc : link (cur ++ [c]) = none := h [c] (by simp) (List.prefix_append [c] rest)
      simp only [hc]
      refine ih.mpr fun a hne hpre => ?_
      rw [List.append_assoc, List.singleton_append]
      exact h (c :: a) (by simp) (List.cons_prefix_cons.mpr ⟨rfl, hpre⟩)

/-- The first link on a path. -/
structure FirstLink (link : Path → Option Path) (cur a target : Path) : Prop where
  ne_nil : a ≠ []
  points : link (cur ++ a) = some target
  first : ∀ a', a' ≠ [] → a' <+: a → a' ≠ a → link (cur ++ a') = none

theorem expand_some_iff :
    expand link cur p = some q ↔ ∃ a b target, p = a ++ b ∧ q = target ++ b ∧ FirstLink link cur a target := by
  induction p generalizing cur with
  | nil =>
    refine ⟨fun h => (by cases h), ?_⟩
    rintro ⟨a, b, target, hp, -, hfirst⟩
    exact absurd (List.append_eq_nil_iff.mp hp.symm).1 hfirst.ne_nil
  | cons c rest ih =>
    rw [expand]
    cases hlink : link (cur ++ [c]) with
    | some target =>
      simp only [Option.some.injEq]
      constructor
      · rintro rfl
        refine ⟨[c], rest, target, rfl, rfl, by simp, hlink, ?_⟩
        intro a' hne hpre hlt
        cases a' with
        | nil => exact absurd rfl hne
        | cons x a' =>
          obtain ⟨rfl, hnil⟩ := List.cons_prefix_cons.mp hpre
          exact absurd (congrArg (x :: ·) (List.prefix_nil.mp hnil)) hlt
      · rintro ⟨a, b, target', hp, rfl, hfirst⟩
        cases a with
        | nil => exact absurd rfl hfirst.ne_nil
        | cons x a =>
          obtain ⟨rfl, rfl⟩ := List.cons_eq_cons.mp hp
          by_cases ha : a = []
          · subst ha
            have hpoints := hfirst.points
            rw [hlink] at hpoints
            cases hpoints
            rfl
          · have := hfirst.first [c] (by simp) (List.prefix_append [c] a) (by simpa using Ne.symm ha)
            rw [hlink] at this
            cases this
    | none =>
      simp only
      rw [ih]
      constructor
      · rintro ⟨a, b, target, rfl, rfl, hfirst⟩
        refine ⟨c :: a, b, target, rfl, rfl, by simp, ?_, ?_⟩
        · simpa using hfirst.points
        · intro a' hne hpre hlt
          cases a' with
          | nil => exact absurd rfl hne
          | cons x a' =>
            obtain ⟨rfl, hrest⟩ := List.cons_prefix_cons.mp hpre
            by_cases ha : a' = []
            · subst ha
              exact hlink
            · have := hfirst.first a' ha hrest (by simpa using hlt)
              rwa [List.append_assoc, List.singleton_append] at this
      · rintro ⟨a, b, target, hp, rfl, hfirst⟩
        cases a with
        | nil => exact absurd rfl hfirst.ne_nil
        | cons x a =>
          obtain ⟨rfl, rfl⟩ := List.cons_eq_cons.mp hp
          have hpoints := hfirst.points
          have hne : a ≠ [] := by
            rintro rfl
            rw [hlink] at hpoints
            cases hpoints
          refine ⟨a, b, target, rfl, rfl, hne, by simpa using hpoints, ?_⟩
          intro a' hne' hpre hlt
          rw [List.append_assoc, List.singleton_append]
          exact hfirst.first (c :: a') (by simp) (List.cons_prefix_cons.mpr ⟨rfl, hpre⟩) (by simpa using hlt)

theorem expand_append (h : expand link cur p = some q) (r : Path) : expand link cur (p ++ r) = some (q ++ r) := by
  obtain ⟨a, b, target, rfl, rfl, hfirst⟩ := expand_some_iff.mp h
  exact expand_some_iff.mpr ⟨a, b ++ r, target, by simp, by simp, hfirst⟩

theorem follow_of_clear (h : expand link [] p = none) (n : Nat) : follow link n p = some p := by
  cases n <;> simp [follow, h]

theorem follow_of_link (h : expand link [] p = some q) : follow link (n + 1) p = follow link n q := by
  simp [follow, h]

theorem follow_induct {P : Nat → Path → Path → Prop} (clear : ∀ n p, expand link [] p = none → P n p p)
    (step : ∀ n p q r, expand link [] p = some q → P n q r → P (n + 1) p r) (h : follow link n p = some r) :
    P n p r := by
  induction n generalizing p with
  | zero =>
    cases hexp : expand link [] p with
    | none =>
      rw [follow_of_clear hexp] at h
      cases h
      exact clear 0 _ hexp
    | some q => simp [follow, hexp] at h
  | succ n ih =>
    cases hexp : expand link [] p with
    | none =>
      rw [follow_of_clear hexp] at h
      cases h
      exact clear (n + 1) _ hexp
    | some q =>
      rw [follow_of_link hexp] at h
      exact step n _ q r hexp (ih h)

/-- No link is left on the path that is led to. -/
theorem follow_clear (h : follow link n p = some r) : expand link [] r = none :=
  follow_induct (P := fun _ _ r => expand link [] r = none) (fun _ _ h => h) (fun _ _ _ _ _ h => h) h

theorem clear_snoc {c : String} (h : expand link [] p = none) (hc : link (p ++ [c]) = none) :
    expand link [] (p ++ [c]) = none := by
  rw [expand_none_iff] at h ⊢
  intro a hne hpre
  rcases List.prefix_concat_iff.mp hpre with rfl | hshort
  · exact hc
  · exact h a hne hshort

theorem follow_snoc {c : String} (h : follow link n p = some r) (hc : link (r ++ [c]) = none) :
    follow link n (p ++ [c]) = some (r ++ [c]) := by
  refine follow_induct (P := fun n p r => link (r ++ [c]) = none → follow link n (p ++ [c]) = some (r ++ [c]))
    ?_ ?_ h hc
  · intro n p hclear hc
    exact follow_of_clear (clear_snoc hclear hc) n
  · intro n p q r hexp ih hc
    rw [follow_of_link (expand_append hexp [c])]
    exact ih hc

theorem follow_none_append (h : follow link n p = none) (r : Path) : follow link n (p ++ r) = none := by
  induction n generalizing p with
  | zero =>
    cases hexp : expand link [] p with
    | none =>
      rw [follow_of_clear hexp] at h
      cases h
    | some q => simp [follow, expand_append hexp]
  | succ n ih =>
    cases hexp : expand link [] p with
    | none =>
      rw [follow_of_clear hexp] at h
      cases h
    | some q =>
      rw [follow_of_link hexp] at h
      rw [follow_of_link (expand_append hexp r)]
      exact ih h

/-- Without the link `r ++ [c]`, a path that led through `r` to it ends at its place or
below. -/
theorem follow_removed {c : String} (h : follow link n p = some r)
    (hbelow : ∀ b, b ≠ [] → link (r ++ [c] ++ b) = none) {y : Path}
    (hy : follow (Function.update link (r ++ [c]) none) n (p ++ [c]) = some y) : r ++ [c] <+: y := by
  refine follow_induct (P := fun n p r => (∀ b, b ≠ [] → link (r ++ [c] ++ b) = none) → ∀ y,
    follow (Function.update link (r ++ [c]) none) n (p ++ [c]) = some y → r ++ [c] <+: y) ?_ ?_ h hbelow y hy
  · intro n p hclear _ y hy
    have hend : expand (Function.update link (p ++ [c]) none) [] (p ++ [c]) = none := by
      refine clear_snoc (expand_none_iff.mpr fun a hne hpre => ?_) (by simp)
      exact update_none_of_none (expand_none_iff.mp hclear a hne hpre)
    rw [follow_of_clear hend] at hy
    cases hy
    exact List.prefix_rfl
  · intro n p q r hexp ih hbelow y hy
    obtain ⟨a, b, target, rfl, rfl, hfirst⟩ := expand_some_iff.mp hexp
    by_cases hax : a = r ++ [c]
    · -- the walk used to go through the link; now it goes on below its place
      have hend : expand (Function.update link (r ++ [c]) none) [] (a ++ b ++ [c]) = none := by
        refine expand_none_iff.mpr fun a' hne hpre => ?_
        rw [List.append_assoc] at hpre
        rcases List.prefix_or_prefix_of_prefix hpre (List.prefix_append a (b ++ [c])) with hshort | ⟨s, rfl⟩
        · by_cases heq : a' = a
          · simp [heq, hax]
          · exact update_none_of_none (hfirst.first a' hne hshort heq)
        · by_cases hs : s = []
          · simp [hs, hax]
          · exact update_none_of_none (hax ▸ hbelow s hs)
      rw [follow_of_clear hend] at hy
      cases hy
      rw [← hax, List.append_assoc]
      exact List.prefix_append _ _
    · have hlink : FirstLink (Function.update link (r ++ [c]) none) [] a target := by
        refine ⟨hfirst.ne_nil, ?_, fun a' hne hpre hlt => update_none_of_none (hfirst.first a' hne hpre hlt)⟩
        rw [List.nil_append, Function.update_of_ne hax]
        exact hfirst.points
      have hexp' := expand_some_iff.mpr ⟨a, b, target, rfl, rfl, hlink⟩
      rw [follow_of_link (expand_append hexp' [c])] at hy
      exact ih hbelow y hy

end Paths

/-! ## Volumes -/

/-- The links fit the disk: nothing else is at a link, and what has an entry below it is
a directory. -/
structure Fits (link : Path → Option Path) (d : Disk) : Prop where
  root : d.node [] = some .dir
  link_free : ∀ p target, link p = some target → d.node p = none
  below : ∀ p c, d.node (p ++ [c]) ≠ none ∨ link (p ++ [c]) ≠ none → d.node p = some .dir

structure Volume where
  disk : Disk
  link : Path → Option Path
  fits : Fits link disk

namespace Fits
variable {link : Path → Option Path} {d : Disk} {r : Path}

theorem link_root (h : Fits link d) : link [] = none := by
  cases hlink : link [] with
  | none => rfl
  | some target =>
    have := h.link_free [] target hlink
    rw [h.root] at this
    cases this

theorem link_of_clear (h : Fits link d) (hr : expand link [] r = none) : link r = none := by
  by_cases hne : r = []
  · rw [hne]
    exact h.link_root
  · exact expand_none_iff.mp hr r hne List.prefix_rfl

/-- Nothing is below a place that is not a directory. -/
theorem vacant (h : Fits link d) (hr : d.node r ≠ some .dir) {s : Path} (hs : s ≠ []) :
    d.node (r ++ s) = none ∧ link (r ++ s) = none := by
  induction s using List.reverseRecOn with
  | nil => exact absurd rfl hs
  | append_singleton s c ih =>
    have hdir : d.node (r ++ s) ≠ some .dir := by
      by_cases hnil : s = []
      · rwa [hnil, List.append_nil]
      · rw [(ih hnil).1]
        exact fun h => by cases h
    rw [← List.append_assoc]
    constructor
    · by_contra hnode
      exact hdir (h.below _ _ (.inl hnode))
    · by_contra hlink
      exact hdir (h.below _ _ (.inr hlink))

/-- A new entry where there was none, in a directory that is there. -/
theorem add (h : Fits link d) {d' : Disk} {n : Node} (hfree : d.node r = none) (hlink : link r = none)
    (hparent : d.node r.dropLast = some .dir) (hnode : d'.node = Function.update d.node r (some n)) :
    Fits link d' := by
  have hkeep : ∀ p, d.node p = some .dir → d'.node p = some .dir := by
    intro p hp
    have hne : p ≠ r := by
      rintro rfl
      rw [hfree] at hp
      cases hp
    rw [hnode, Function.update_of_ne hne, hp]
  refine ⟨hkeep [] h.root, ?_, ?_⟩
  · intro p target hp
    have hne : p ≠ r := by
      rintro rfl
      rw [hlink] at hp
      cases hp
    rw [hnode, Function.update_of_ne hne]
    exact h.link_free p target hp
  · intro p c hpc
    by_cases hne : p ++ [c] = r
    · apply hkeep
      rw [← hne, List.dropLast_concat] at hparent
      exact hparent
    · rw [hnode, Function.update_of_ne hne] at hpc
      exact hkeep p (h.below p c hpc)

theorem write (h : Fits link d) (hr : expand link [] r = none) (bytes : Bytes) : Fits link (d.write r bytes).2 := by
  unfold Disk.write
  rcases hnode : d.node r with _ | _ | i
  · simp only
    split
    · rename_i hparent
      exact h.add hnode (h.link_of_clear hr) hparent rfl
    · exact h
  · exact h
  · exact ⟨h.root, h.link_free, h.below⟩

theorem addDir (h : Fits link d) (hr : link r = none ∧ d.node r = none ∧ d.node r.dropLast = some .dir) :
    Fits link (d.addDir r) := by
  refine h.add hr.2.1 hr.1 hr.2.2 (n := .dir) (funext fun q => ?_)
  by_cases hq : q = r
  · simp [Disk.addDir, hq, hr.2.1]
  · simp [Disk.addDir, hq]

theorem unlink (h : Fits link d) (hr : d.isFile r = true) : Fits link (d.unlink r) := by
  obtain ⟨i, hi⟩ := Disk.isFile_iff.mp hr
  have hkeep : ∀ p, d.node p = some .dir → (d.unlink r).node p = some .dir := by
    intro p hp
    have hne : p ≠ r := by
      rintro rfl
      rw [hi] at hp
      cases hp
    simp [Disk.unlink, hne, hp]
  have hless : ∀ p, d.node p = none → (d.unlink r).node p = none := by
    intro p hp
    by_cases hpr : p = r
    · simp [Disk.unlink, hpr]
    · simp [Disk.unlink, hpr, hp]
  refine ⟨hkeep [] h.root, fun p target hp => hless p (h.link_free p target hp), fun p c hpc => ?_⟩
  refine hkeep p (h.below p c (hpc.imp_left fun hne hnone => hne (hless _ hnone)))

theorem removeLink (h : Fits link d) (r : Path) : Fits (Function.update link r none) d where
  root := h.root
  link_free := by
    intro p target hp
    by_cases hpr : p = r
    · simp [hpr] at hp
    · rw [Function.update_of_ne hpr] at hp
      exact h.link_free p target hp
  below := by
    intro p c hpc
    refine h.below p c (hpc.imp_right fun hne hnone => hne ?_)
    exact update_none_of_none hnone

end Fits

namespace Volume

def place (v : Volume) (p : Path) : Option Path := follow v.link maxLinks p

/-- The place of the directory entry that `p` names: its last component is not followed. -/
def entry (v : Volume) (p : Path) : Option Path := (v.place p.dropLast).map fun r => r ++ p.getLast?.toList

def read (v : Volume) (p : Path) : Option Bytes := (v.place p).bind v.disk.read

/-- One step of `mkdir -p`: a link that leads nowhere is in the way like a file. -/
def mkdir (v : Volume) (p : Path) : Bool × Volume :=
  match (v.place p).bind v.disk.node with
  | some .dir => (true, v)
  | some (.file _) => (false, v)
  | none =>
    match v.entry p with
    | none => (false, v)
    | some r =>
      if h : v.link r = none ∧ v.disk.node r = none ∧ v.disk.node r.dropLast = some .dir then
        (true, ⟨v.disk.addDir r, v.link, v.fits.addDir h⟩)
      else (false, v)

def mkdirAll (v : Volume) : List Path → Bool × Volume
  | [] => (true, v)
  | p :: ps =>
    match v.mkdir p with
    | (false, v) => (false, v)
    | (true, v) => mkdirAll v ps

def mkdirP (v : Volume) (p : Path) : Bool × Volume := v.mkdirAll p.inits

def write (v : Volume) (p : Path) (bytes : Bytes) : Bool × Volume :=
  match h : v.place p with
  | none => (false, v)
  | some r => ((v.disk.write r bytes).1, ⟨(v.disk.write r bytes).2, v.link, v.fits.write (follow_clear h) bytes⟩)

/-- `rm -f`: the entry, not what it points to. -/
def unlink (v : Volume) (p : Path) : Volume :=
  match v.entry p with
  | none => v
  | some r =>
    if v.link r ≠ none then ⟨v.disk, Function.update v.link r none, v.fits.removeLink r⟩
    else if h : v.disk.isFile r = true then ⟨v.disk.unlink r, v.link, v.fits.unlink h⟩
    else v

/-- The paths lead to one place, or to links of one file. -/
def Same (v : Volume) (p q : Path) : Prop :=
  ∃ r r', v.place p = some r ∧ v.place q = some r' ∧ (r = r' ∨ v.disk.SameFile r r')

theorem place_of_no_links {v : Volume} (h : ∀ p, v.link p = none) (p : Path) : v.place p = some p :=
  follow_of_clear (expand_none_iff.mpr fun a _ _ => h ([] ++ a)) _

/-- No link changes, and no file. -/
structure Keeps (v v' : Volume) : Prop where
  link : v'.link = v.link
  files : ∀ p i, v'.disk.node p = some (.file i) ↔ v.disk.node p = some (.file i)
  content : v'.disk.content = v.disk.content

theorem Keeps.refl (v : Volume) : Keeps v v := ⟨rfl, fun _ _ => Iff.rfl, rfl⟩

theorem Keeps.trans {v v' v'' : Volume} (h : Keeps v v') (h' : Keeps v' v'') : Keeps v v'' :=
  ⟨h'.link.trans h.link, fun p i => (h'.files p i).trans (h.files p i), h'.content.trans h.content⟩

theorem Keeps.place {v v' : Volume} (h : Keeps v v') (p : Path) : v'.place p = v.place p := by
  unfold Volume.place
  rw [h.link]

theorem Keeps.read {v v' : Volume} (h : Keeps v v') (p : Path) : v'.read p = v.read p := by
  have hdisk : ∀ r, v'.disk.read r = v.disk.read r := by
    intro r
    refine Option.ext fun bytes => ?_
    simp only [Disk.read_eq_some, h.files, h.content]
  unfold Volume.read
  rw [h.place, funext hdisk]

theorem Keeps.same {v v' : Volume} (h : Keeps v v') {p q : Path} (hs : v'.Same p q) : v.Same p q := by
  obtain ⟨r, r', hp, hq, hrr'⟩ := hs
  refine ⟨r, r', h.place p ▸ hp, h.place q ▸ hq, hrr'.imp_right ?_⟩
  rintro ⟨i, hi, hi'⟩
  exact ⟨i, (h.files r i).mp hi, (h.files r' i).mp hi'⟩

theorem mkdir_keeps (v : Volume) (p : Path) : Keeps v (v.mkdir p).2 := by
  unfold mkdir
  split
  · exact .refl v
  · exact .refl v
  · split
    · exact .refl v
    · split
      · exact ⟨rfl, fun q i => v.disk.addDir_files _ q i, rfl⟩
      · exact .refl v

theorem mkdirAll_keeps (v : Volume) (ps : List Path) : Keeps v (v.mkdirAll ps).2 := by
  induction ps generalizing v with
  | nil => exact .refl v
  | cons p ps ih =>
    have hfirst := v.mkdir_keeps p
    rw [mkdirAll]
    generalize v.mkdir p = made at hfirst ⊢
    rcases made with ⟨_ | _, v₁⟩
    · exact hfirst
    · exact hfirst.trans (ih v₁)

theorem write_cases (v : Volume) (p : Path) (bytes : Bytes) :
    (v.place p = none ∧ v.write p bytes = (false, v)) ∨
      ∃ r, v.place p = some r ∧ (v.write p bytes).1 = (v.disk.write r bytes).1 ∧
        (v.write p bytes).2.disk = (v.disk.write r bytes).2 ∧ (v.write p bytes).2.link = v.link := by
  unfold write
  split
  · rename_i h
    exact .inl ⟨h, rfl⟩
  · rename_i r h
    exact .inr ⟨r, h, rfl, rfl, rfl⟩

theorem place_congr {v v' : Volume} (h : v'.link = v.link) (p : Path) : v'.place p = v.place p := by
  unfold place
  rw [h]

theorem write_other {v : Volume} {p q : Path} (bytes : Bytes) (h : ¬ v.Same p q) :
    (v.write p bytes).2.read q = v.read q := by
  rcases v.write_cases p bytes with ⟨-, heq⟩ | ⟨r, hr, -, hdisk, hlink⟩
  · rw [heq]
  · unfold read
    rw [place_congr hlink, hdisk]
    cases hq : v.place q with
    | none => rfl
    | some r' =>
      refine (Touches.write r v.disk bytes).read_eq ?_ ?_
      · rintro rfl
        exact h ⟨r', r', hr, hq, .inl rfl⟩
      · exact fun hs => h ⟨r, r', hr, hq, .inr hs⟩

theorem write_same {v : Volume} {p q q' : Path} (bytes : Bytes) (h : (v.write p bytes).2.Same q q') : v.Same q q' := by
  rcases v.write_cases p bytes with ⟨-, heq⟩ | ⟨r, hr, -, hdisk, hlink⟩
  · rwa [heq] at h
  · obtain ⟨s, s', hq, hq', hss'⟩ := h
    rw [place_congr hlink] at hq hq'
    refine ⟨s, s', hq, hq', ?_⟩
    rcases hss' with heq | hs
    · exact .inl heq
    · rw [hdisk] at hs
      exact v.disk.write_sameFile r bytes hs

theorem read_of_place {v : Volume} {p r : Path} (h : v.place p = some r) : v.read p = v.disk.read r := by
  simp [read, h]

theorem write_ok {v : Volume} {p : Path} {bytes : Bytes} (h : (v.write p bytes).1 = true) :
    (v.write p bytes).2.read p = some bytes := by
  rcases v.write_cases p bytes with ⟨-, heq⟩ | ⟨r, hr, hok, hdisk, hlink⟩
  · rw [heq] at h
    cases h
  · rw [read_of_place ((place_congr hlink p).trans hr), hdisk]
    exact Disk.write_read_self (Prod.ext (hok ▸ h) rfl)

theorem write_failed {v : Volume} {p : Path} {bytes : Bytes} (h : (v.write p bytes).1 = false) :
    (v.write p bytes).2.read p = none := by
  rcases v.write_cases p bytes with ⟨hp, heq⟩ | ⟨r, hr, hok, hdisk, hlink⟩
  · rw [heq]
    simp [read, hp]
  · rw [read_of_place ((place_congr hlink p).trans hr), hdisk]
    exact Disk.write_failed (hok ▸ h)

theorem read_none_of_vacant {v : Volume} {p : Path} (h : ∀ r, v.place p = some r → v.disk.read r = none) :
    v.read p = none := by
  unfold read
  cases hp : v.place p with
  | none => rfl
  | some r => exact h r hp

/-- After `rm -f p` nothing can be read at `p`, wherever the links lead now. -/
theorem unlink_self (v : Volume) (p : Path) : (v.unlink p).read p = none := by
  rcases List.eq_nil_or_concat p with rfl | ⟨p, c, rfl⟩
  · have hroot : v.place [] = some [] := follow_of_clear rfl _
    have hread : v.disk.read [] = none := by simp [Disk.read, v.fits.root]
    have hfile : v.disk.isFile [] = false := by simp [Disk.isFile, v.fits.root]
    have hsame : v.unlink [] = v := by
      simp [unlink, entry, hroot, v.fits.link_root, hfile]
    rw [hsame, read_of_place hroot, hread]
  rw [List.concat_eq_append]
  have hentry : v.entry (p ++ [c]) = (v.place p).map fun r => r ++ [c] := by simp [entry]
  unfold unlink
  rw [hentry]
  cases hp : v.place p with
  | none =>
    refine read_none_of_vacant fun r hr => ?_
    have hnone : v.place (p ++ [c]) = none := follow_none_append hp [c]
    simp only [Option.map_none] at hr
    rw [hnone] at hr
    cases hr
  | some r =>
    simp only [Option.map_some]
    split
    · rename_i hlink
      -- the link is gone: what the path leads to now is at its place or below
      obtain ⟨target, htarget⟩ := Option.ne_none_iff_exists'.mp hlink
      have hvacant : v.disk.node (r ++ [c]) = none := v.fits.link_free _ _ htarget
      have hbelow : ∀ s, s ≠ [] → v.disk.node (r ++ [c] ++ s) = none ∧ v.link (r ++ [c] ++ s) = none := by
        intro s hs
        refine v.fits.vacant ?_ hs
        rw [hvacant]
        exact fun h => by cases h
      refine read_none_of_vacant fun y hy => ?_
      obtain ⟨s, rfl⟩ := follow_removed hp (fun s hs => (hbelow s hs).2) hy
      have hnode : v.disk.node (r ++ [c] ++ s) = none := by
        by_cases hs : s = []
        · rw [hs, List.append_nil, hvacant]
        · exact (hbelow s hs).1
      simp only [Disk.read, hnode]
    · rename_i hlink
      have hplace : v.place (p ++ [c]) = some (r ++ [c]) := follow_snoc hp (not_not.mp hlink)
      split
      · refine read_none_of_vacant fun y hy => ?_
        have heq : some y = some (r ++ [c]) := hy.symm.trans ((place_congr rfl _).trans hplace)
        cases heq
        exact v.disk.unlink_read_self _
      · rename_i hfile
        rw [read_of_place hplace]
        cases hread : v.disk.read (r ++ [c]) with
        | none => rfl
        | some bytes =>
          obtain ⟨i, hi, -⟩ := Disk.read_eq_some.mp hread
          exact absurd (Disk.isFile_iff.mpr ⟨i, hi⟩) hfile

end Volume

instance : Files Volume where
  read := Volume.read
  mkdirP := Volume.mkdirP
  write := Volume.write
  unlink := Volume.unlink
  Same := Volume.Same

instance : LawfulFiles Volume where
  same_symm := by
    rintro v p q ⟨r, r', hp, hq, hrr'⟩
    refine ⟨r', r, hq, hp, ?_⟩
    rcases hrr' with rfl | ⟨i, hi, hi'⟩
    · exact .inl rfl
    · exact .inr ⟨i, hi', hi⟩
  mkdirP_read := fun v p q => (v.mkdirAll_keeps p.inits).read q
  mkdirP_same := fun v p _ _ h => (v.mkdirAll_keeps p.inits).same h
  write_other := fun _ _ bytes _ h => Volume.write_other bytes h
  write_same := fun _ _ bytes _ _ h => Volume.write_same bytes h
  write_ok := fun _ _ _ h => Volume.write_ok h
  write_failed := fun _ _ _ h => Volume.write_failed h
  unlink_self := Volume.unlink_self

end FileSystem
