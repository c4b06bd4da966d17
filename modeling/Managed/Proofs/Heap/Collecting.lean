import Managed.Proofs.Heap.Sweeping

/-!
# What a collection keeps

Between collections a heap is tidy: its free slots are empty and listed once, no object bears a mark,
and the remembered set is what the headers say. In a tidy heap whose old objects with young ones are
all remembered (`Barriered`), a collection of either kind

* leaves every reference of a surviving object resolving to the value it had (`spared_of_held`),
* frees nothing that can be reached from its roots (`spared_of_reaches`),
* leaves a heap that is tidy and has its old objects with young ones remembered again
  (`tidy_collect`, `barriered_collect`).

A minor collection never looks at old objects that are not remembered. That they hold nothing young is
all it relies on. One object and what it holds can be looked at by themselves (`spared_of_watched`,
`watched_collect`), whatever is remembered of others.
-/

namespace Managed.Heap

variable {α : Type}

/-- The state of a heap between collections. -/
structure Tidy (h : Heap α) : Prop where
  free_nodup : h.free.Nodup
  free_vacant : ∀ i ∈ h.free, h.Vacant i
  unmarked : ∀ x, h.hasMark x = false
  recorded : h.Recorded

/-- A change that keeps the objects, the marks and the agreement of bits and set. -/
theorem Tidy.of_sameObjects {h h' : Heap α} (ht : h.Tidy) (hs : SameObjects h h')
    (hmark : ∀ x, h'.hasMark x = h.hasMark x) (hr : h'.Recorded) : h'.Tidy where
  free_nodup := by
    rw [hs.free]
    exact ht.free_nodup
  free_vacant i hi := hs.vacant (ht.free_vacant i (by rwa [hs.free] at hi))
  unmarked x := (hmark x).trans (ht.unmarked x)
  recorded := hr

/-- `owner` is remembered if it is old and `x` is young. -/
def Watched (h : Heap α) (owner x : Ref) : Prop :=
  h.needsBarrier owner = true → h.isYoung x = true → owner ∈ h.remembered.refs

variable [Traced α]

/-- `owner` is remembered if it is old and holds a young object. -/
def Guarded (h : Heap α) (owner : Ref) : Prop :=
  h.holdsYoung owner = true → owner ∈ h.remembered.refs

theorem Guarded.watched {h : Heap α} {owner x : Ref} (hb : h.Guarded owner)
    (hx : x ∈ h.children owner) : h.Watched owner x :=
  fun hold hyoung => hb (holdsYoung_iff.mpr ⟨hold, x, hx, hyoung⟩)

/-- Every old object that holds a young one is remembered. -/
def Barriered (h : Heap α) : Prop :=
  ∀ owner, h.holdsYoung owner = true → owner ∈ h.remembered.refs

/-- The live objects that can be reached from the given handles. -/
inductive Reaches (h : Heap α) (roots : List Ref) : Ref → Prop where
  | root {r : Ref} : r ∈ roots → h.contains r = true → Reaches h roots r
  | held {r x : Ref} : Reaches h roots r → x ∈ h.children r → h.contains x = true → Reaches h roots x

theorem contains_of_reaches {h : Heap α} {roots : List Ref} {x : Ref} (hx : h.Reaches roots x) :
    h.contains x = true := by
  cases hx with
  | root _ hc => exact hc
  | held _ _ hc => exact hc

/-- What can be reached from the given handles by a path of objects that all have a property. -/
inductive Trail (h : Heap α) (p : Ref → Bool) (start : List Ref) : Ref → Prop where
  | root {r : Ref} : r ∈ start → p r = true → Trail h p start r
  | held {r x : Ref} : Trail h p start r → x ∈ h.children r → p x = true → Trail h p start x

theorem Trail.mono {h : Heap α} {p : Ref → Bool} {start start' : List Ref} {x : Ref}
    (hx : h.Trail p start x) (hsub : ∀ r ∈ start, r ∈ start') : h.Trail p start' x := by
  induction hx with
  | root hr hp => exact .root (hsub _ hr) hp
  | held _ hx hp ih => exact .held ih hx hp

theorem Trail.reaches {h : Heap α} {p : Ref → Bool} {start : List Ref} {x : Ref}
    (hx : h.Trail p start x) (hlive : ∀ r, p r = true → h.contains r = true) :
    h.Reaches start x := by
  induction hx with
  | root hr hp => exact .root hr (hlive _ hp)
  | held _ hx hp ih => exact .held ih hx (hlive _ hp)

theorem SameObjects.trail {h h' : Heap α} (hs : SameObjects h h') {p : Ref → Bool}
    {start : List Ref} {x : Ref} (hx : h'.Trail p start x) : h.Trail p start x := by
  induction hx with
  | root hr hp => exact .root hr hp
  | held _ hx hp ih => exact .held ih (by rwa [← hs.children]) hp

theorem Reaches.mono {h : Heap α} {roots roots' : List Ref} {x : Ref} (hx : h.Reaches roots x)
    (hsub : ∀ r ∈ roots, r ∈ roots') : h.Reaches roots' x := by
  induction hx with
  | root hr hc => exact .root (hsub _ hr) hc
  | held _ hx hc ih => exact .held ih hx hc

/-- A walk marks nothing but what it comes to by way of objects that the collection covers. -/
theorem trail_of_hasMark_markFrom (kind : CollectionKind) (h : Heap α) (work : List Ref) {x : Ref}
    (hx : (h.markFrom kind work).hasMark x = true) :
    h.hasMark x = true ∨ h.Trail (h.covered kind) work x := by
  fun_induction markFrom kind h work with
  | case1 h => exact Or.inl hx
  | case2 h r rest hn ih =>
    exact (ih hx).imp_right fun hr => hr.mono fun y hy => List.mem_cons_of_mem _ hy
  | case3 h r rest e he ih =>
    obtain ⟨hr, hcov, _⟩ := markable?_eq_some.mp he
    have hfirst : h.Trail (h.covered kind) (r :: rest) r := .root List.mem_cons_self hcov
    rcases ih hx with hm | htrail
    · rw [hasMark_mark, Bool.or_eq_true, Bool.and_eq_true, beq_iff_eq] at hm
      rcases hm with hm | ⟨rfl, _⟩
      · exact Or.inl hm
      · exact Or.inr hfirst
    · right
      have hsame := sameObjects_mark h r
      rw [funext (hsame.covered kind)] at htrail
      replace htrail := hsame.trail htrail
      clear hx ih
      induction htrail with
      | root hy hc =>
        rcases List.mem_append.mp hy with hy | hy
        · exact .held hfirst (by rwa [children_of_resolve? hr]) hc
        · exact .root (List.mem_cons_of_mem _ hy) hc
      | held _ hy hc ih => exact .held ih hy hc

/-! ## The parts of a collection -/

def collect (kind : CollectionKind) (h : Heap α) (roots : RootSet) : Heap α :=
  match kind with
  | .minor => (h.minorCollect roots).2
  | .major => (h.majorCollect roots).2

/-- The handles a collection starts from. -/
def startOf (kind : CollectionKind) (h : Heap α) (roots : RootSet) : List Ref :=
  match kind with
  | .minor => roots.toList ++ h.remembered.refs.toList.flatMap h.children
  | .major => roots.toList

/-- The heap when marking is done. -/
def walked (kind : CollectionKind) (h : Heap α) (roots : RootSet) : Heap α :=
  h.forgetAll.markFrom kind (h.startOf kind roots)

/-- The objects that may have to be remembered after a sweep. -/
def holdersOf (kind : CollectionKind) (h : Heap α) (roots : RootSet) : List Ref :=
  match kind with
  | .minor => h.remembered.refs.toList ++ (h.walked kind roots).maturing
  | .major => ((h.walked kind roots).sweep kind).liveRefs

theorem collect_eq (kind : CollectionKind) (h : Heap α) (roots : RootSet) :
    ∃ report, h.collect kind roots =
      (((h.walked kind roots).sweep kind).rememberHolders (h.holdersOf kind roots)).tallied
        report := by
  cases kind <;> exact ⟨_, rfl⟩

/-- Whether a collection leaves the object that `x` names alone. -/
def spares (kind : CollectionKind) (h : Heap α) (roots : RootSet) (x : Ref) : Bool :=
  !((h.walked kind roots).dies kind x)

section

variable {h : Heap α} (ht : h.Tidy) (kind : CollectionKind) (roots : RootSet)
include ht

theorem sameObjects_walked : SameObjects h (h.walked kind roots) :=
  (forgetAll_spec ht.recorded).1.trans (marking_markFrom kind _ _).same

theorem remembers_walked (x : Ref) : (h.walked kind roots).remembers x = false := by
  obtain ⟨_, _, _, hbit⟩ := forgetAll_spec ht.recorded
  have hx := hbit x
  have hst := (marking_markFrom kind h.forgetAll (h.startOf kind roots)).stamped x
  unfold walked remembers
  rw [hst]
  unfold remembers at hx
  cases he : h.forgetAll.resolve? x with
  | none => rfl
  | some e => simpa [he, Entry.stamp] using hx

theorem refs_walked : (h.walked kind roots).remembered.refs = #[] := by
  rw [walked, (marking_markFrom kind _ _).remembered]
  exact (forgetAll_spec ht.recorded).2.1

/-- A mark is found on what the collection covers only. -/
theorem covered_of_hasMark_walked {x : Ref} (hx : (h.walked kind roots).hasMark x = true) :
    h.covered kind x = true := by
  obtain ⟨hsame, _, hmark, _⟩ := forgetAll_spec ht.recorded
  rcases (marking_markFrom kind _ _).covered x hx with hm | hc
  · rw [hmark, ht.unmarked] at hm
    cases hm
  · rwa [hsame.covered] at hc

theorem hasMark_walked_of_start {x : Ref} (hx : x ∈ h.startOf kind roots)
    (hc : h.covered kind x = true) : (h.walked kind roots).hasMark x = true := by
  have hsame := (forgetAll_spec ht.recorded).1
  exact (marking_markFrom kind _ _).started x hx (by rwa [hsame.covered])

/-- What a marked object holds is marked too, if the collection covers it. -/
theorem hasMark_walked_of_held {x y : Ref} (hx : (h.walked kind roots).hasMark x = true)
    (hy : y ∈ h.children x) (hc : h.covered kind y = true) :
    (h.walked kind roots).hasMark y = true := by
  obtain ⟨hsame, _, hmark, _⟩ := forgetAll_spec ht.recorded
  refine (marking_markFrom kind _ _).closed x hx ?_ y ?_ ?_
  · rw [hmark, ht.unmarked]
  · rwa [hsame.children]
  · rwa [hsame.covered]

/-- What is marked is what can be reached, by way of objects that the collection covers, from where the
collection starts. -/
theorem hasMark_walked_iff {x : Ref} :
    (h.walked kind roots).hasMark x = true ↔ h.Trail (h.covered kind) (h.startOf kind roots) x := by
  constructor
  · intro hx
    obtain ⟨hsame, _, hmark, _⟩ := forgetAll_spec ht.recorded
    rcases trail_of_hasMark_markFrom kind _ _ hx with hm | htrail
    · rw [hmark, ht.unmarked] at hm
      cases hm
    · rw [funext (hsame.covered kind)] at htrail
      exact hsame.trail htrail
  · intro hx
    induction hx with
    | root hr hc => exact hasMark_walked_of_start ht kind roots hr hc
    | held _ hx hc ih => exact hasMark_walked_of_held ht kind roots ih hx hc

theorem reaches_of_hasMark_walked {x : Ref} (hx : (h.walked kind roots).hasMark x = true) :
    h.Reaches (h.startOf kind roots) x :=
  ((hasMark_walked_iff ht kind roots).mp hx).reaches fun _ hc => contains_of_covered hc

/-! ## What survives -/

theorem spares_iff {x : Ref} :
    h.spares kind roots x = true ↔
      (h.covered kind x = true → (h.walked kind roots).hasMark x = true) := by
  rw [spares, dies, (sameObjects_walked ht kind roots).covered]
  cases h.covered kind x <;> simp

/-- A reference of a surviving object survives with it. -/
theorem spared_of_watched {r x : Ref} (hw : h.Watched r x) (hlive : h.contains r = true)
    (hr : h.spares kind roots r = true) (hx : x ∈ h.children r) : h.spares kind roots x = true := by
  rw [spares_iff ht] at hr ⊢
  intro hc
  by_cases hcr : h.covered kind r = true
  · exact hasMark_walked_of_held ht kind roots (hr hcr) hx hc
  · -- only an old object escapes a minor collection; holding a young one it is remembered
    cases kind with
    | major =>
      rw [covered_major] at hcr
      exact absurd hlive hcr
    | minor =>
      have hold : h.needsBarrier r = true :=
        needsBarrier_of_not_isYoung hlive ((Bool.not_eq_true _).mp hcr)
      have hmem := hw hold hc
      refine hasMark_walked_of_start ht .minor roots ?_ hc
      exact List.mem_append_right _ (List.mem_flatMap.mpr ⟨r, by simpa using hmem, hx⟩)

theorem spared_of_guarded {r x : Ref} (hb : h.Guarded r) (hlive : h.contains r = true)
    (hr : h.spares kind roots r = true) (hx : x ∈ h.children r) : h.spares kind roots x = true :=
  spared_of_watched ht kind roots (hb.watched hx) hlive hr hx

theorem spared_of_held (hb : h.Barriered) {r x : Ref} (hlive : h.contains r = true)
    (hr : h.spares kind roots r = true) (hx : x ∈ h.children r) : h.spares kind roots x = true :=
  spared_of_guarded ht kind roots (hb r) hlive hr hx

theorem spared_of_reaches (hb : h.Barriered) {x : Ref} (hx : h.Reaches roots.toList x) :
    h.spares kind roots x = true := by
  induction hx with
  | @root r hr hlive =>
    refine (spares_iff ht kind roots).mpr fun hc => hasMark_walked_of_start ht kind roots ?_ hc
    cases kind with
    | minor => exact List.mem_append_left _ hr
    | major => exact hr
  | held hr hx _ ih => exact spared_of_held ht kind roots hb (contains_of_reaches hr) ih hx

/-! ## The heap after a collection -/

theorem recorded_sweep_walked : ((h.walked kind roots).sweep kind).Recorded := by
  intro x
  have hrefs : ((h.walked kind roots).sweep kind).remembered.refs = #[] := refs_walked ht kind roots
  rw [hrefs]
  have hbit : ((h.walked kind roots).sweep kind).remembers x = false := by
    unfold remembers
    cases he' : ((h.walked kind roots).sweep kind).resolve? x with
    | none => rfl
    | some e' =>
      obtain ⟨e, he, hd⟩ := resolve?_of_sweep he'
      obtain ⟨e₁, he₁, _, hrem, _⟩ := resolve?_sweep_of_not_dies he hd
      rw [he'] at he₁
      cases he₁
      have hx := remembers_walked ht kind roots x
      rw [remembers, he] at hx
      simpa [hrem] using hx
  simp [hbit]

theorem hasMark_sweep_walked (x : Ref) : ((h.walked kind roots).sweep kind).hasMark x = false := by
  unfold hasMark
  cases he' : ((h.walked kind roots).sweep kind).resolve? x with
  | none => rfl
  | some e' =>
    obtain ⟨e, he, hd⟩ := resolve?_of_sweep he'
    obtain ⟨e₁, he₁, _, _, hmark, _⟩ := resolve?_sweep_of_not_dies he hd
    rw [he'] at he₁
    cases he₁
    rw [Option.any_some, Bool.eq_false_iff]
    intro hm
    obtain ⟨hnc, hm'⟩ := hmark hm
    have hc := covered_of_hasMark_walked ht kind roots (x := x) (by simp [hasMark, he, hm'])
    rw [← (sameObjects_walked ht kind roots).covered, covered, he, Option.any_some, hnc] at hc
    cases hc

/-- A collection leaves the objects that its sweep leaves. -/
theorem sameObjects_collect :
    SameObjects ((h.walked kind roots).sweep kind) (h.collect kind roots) := by
  obtain ⟨report, heq⟩ := collect_eq kind h roots
  rw [heq]
  have hs := (rememberHolders_spec (recorded_sweep_walked ht kind roots) (h.holdersOf kind roots)).1
  exact ⟨hs.limits, hs.free, hs.serial, hs.face⟩

theorem tidy_collect : (h.collect kind roots).Tidy := by
  have hsweep : ((h.walked kind roots).sweep kind).Tidy := by
    have hw := sameObjects_walked ht kind roots
    refine ⟨?_, ?_, hasMark_sweep_walked ht kind roots, recorded_sweep_walked ht kind roots⟩
    · have hfree : (h.walked kind roots).free.Nodup := by
        rw [hw.free]
        exact ht.free_nodup
      refine List.nodup_append.mpr ⟨(List.reverse_perm _).nodup_iff.mpr (nodup_dying kind _), hfree, ?_⟩
      rintro i hi _ hi' rfl
      refine not_vacant_of_mem_dying (List.mem_reverse.mp hi) (hw.vacant (ht.free_vacant i ?_))
      rwa [hw.free] at hi'
    · intro i hi
      rcases List.mem_append.mp hi with hi | hi
      · exact vacant_sweep_of_mem_dying (List.mem_reverse.mp hi)
      · exact vacant_sweep (hw.vacant (ht.free_vacant i (by rwa [hw.free] at hi)))
  obtain ⟨report, heq⟩ := collect_eq kind h roots
  obtain ⟨_, hrec, hmark, _⟩ := rememberHolders_spec hsweep.recorded (h.holdersOf kind roots)
  have hs := sameObjects_collect ht kind roots
  rw [heq] at hs ⊢
  exact hsweep.of_sameObjects hs hmark hrec

theorem get?_collect (x : Ref) :
    (h.collect kind roots).get? x = if h.spares kind roots x then h.get? x else none := by
  have hw := sameObjects_walked ht kind roots
  rw [(sameObjects_collect ht kind roots).get?, spares]
  cases hd : (h.walked kind roots).dies kind x with
  | true => simp [Heap.get?, resolve?_sweep_of_dies hd]
  | false =>
    rw [← hw.get?]
    cases he : (h.walked kind roots).resolve? x with
    | none => simp [Heap.get?, resolve?_sweep, he]
    | some e =>
      obtain ⟨e', he', hv, _⟩ := resolve?_sweep_of_not_dies he hd
      simp [Heap.get?, he, he', hv]

theorem contains_collect (x : Ref) :
    (h.collect kind roots).contains x = (h.contains x && h.spares kind roots x) := by
  rw [Bool.eq_iff_iff, contains_iff_get?, Bool.and_eq_true, contains_iff_get?, get?_collect ht]
  cases h.spares kind roots x <;> simp

theorem children_collect {x : Ref} (hx : (h.collect kind roots).contains x = true) :
    (h.collect kind roots).children x = h.children x := by
  rw [contains_collect ht, Bool.and_eq_true] at hx
  rw [children, children, get?_collect ht, if_pos hx.2]

theorem serial?_collect (i : Nat) :
    (h.collect kind roots).serial? i =
      (h.serial? i).map fun u =>
        if h.contains ⟨i, u⟩ && !(h.collect kind roots).contains ⟨i, u⟩ then u + 1 else u := by
  have hw := sameObjects_walked ht kind roots
  rw [(sameObjects_collect ht kind roots).serial, serial?_sweep, hw.serial]
  congr 1
  funext u
  have hd : (h.walked kind roots).dies kind ⟨i, u⟩ =
      (h.contains ⟨i, u⟩ && !(h.collect kind roots).contains ⟨i, u⟩) := by
    rw [contains_collect ht, spares]
    cases hd : (h.walked kind roots).dies kind ⟨i, u⟩ with
    | false => simp
    | true =>
      rw [dies, Bool.and_eq_true] at hd
      have hc : h.contains ⟨i, u⟩ = true := by
        have hc := hd.1
        rw [← hw.contains, contains]
        rw [covered] at hc
        cases he : (h.walked kind roots).resolve? ⟨i, u⟩ with
        | none => simp [he] at hc
        | some e => rfl
      simp [hc]
  rw [hd]

/-- After a collection a young object was young before. -/
theorem isYoung_of_collect {x : Ref} (hx : (h.collect kind roots).isYoung x = true) :
    h.isYoung x = true := by
  have hw := sameObjects_walked ht kind roots
  rw [(sameObjects_collect ht kind roots).isYoung] at hx
  rw [← hw.isYoung]
  obtain ⟨e', he', hy⟩ := isYoung_iff.mp hx
  obtain ⟨e, he, hd⟩ := resolve?_of_sweep he'
  obtain ⟨e₁, he₁, _, _, _, hyoung, _⟩ := resolve?_sweep_of_not_dies he hd
  rw [he'] at he₁
  cases he₁
  exact isYoung_iff.mpr ⟨e, he, hyoung hy⟩

/-- An old object after a collection was old before or has just become old. -/
theorem needsBarrier_of_collect {x : Ref} (hx : (h.collect kind roots).needsBarrier x = true) :
    h.needsBarrier x = true ∨ x ∈ (h.walked kind roots).maturing := by
  have hw := sameObjects_walked ht kind roots
  rw [(sameObjects_collect ht kind roots).needsBarrier] at hx
  rw [← hw.needsBarrier]
  obtain ⟨e', he', ho⟩ := needsBarrier_iff.mp hx
  obtain ⟨e, he, hd⟩ := resolve?_of_sweep he'
  obtain ⟨e₁, he₁, _, _, _, _, hold⟩ := resolve?_sweep_of_not_dies he hd
  rw [he'] at he₁
  cases he₁
  rcases hold ho with ho | hm
  · exact Or.inl (needsBarrier_iff.mpr ⟨e, he, ho⟩)
  · exact Or.inr hm

/-- The objects that a collection remembers. -/
theorem mem_refs_collect {owner : Ref} :
    owner ∈ (h.collect kind roots).remembered.refs ↔
      owner ∈ h.holdersOf kind roots ∧ (h.collect kind roots).holdsYoung owner = true := by
  obtain ⟨report, heq⟩ := collect_eq kind h roots
  have hrefs : ((h.walked kind roots).sweep kind).remembered.refs = #[] := refs_walked ht kind roots
  obtain ⟨_, _, _, hmem⟩ :=
    rememberHolders_spec (recorded_sweep_walked ht kind roots) (h.holdersOf kind roots)
  rw [(sameObjects_collect ht kind roots).holdsYoung, heq]
  refine (hmem owner).trans ⟨fun howner => howner.resolve_left ?_, Or.inr⟩
  rw [hrefs]
  exact Array.not_mem_empty owner

omit kind in
/-- A major collection looks at all objects that are left. -/
theorem mem_holdersOf_major {owner : Ref} (hlive : (h.collect .major roots).contains owner = true) :
    owner ∈ h.holdersOf .major roots := by
  rw [(sameObjects_collect ht .major roots).contains] at hlive
  exact mem_liveRefs.mpr hlive

theorem watched_collect {owner x : Ref} (hw : h.Watched owner x)
    (hx : x ∈ (h.collect kind roots).children owner) :
    (h.collect kind roots).Watched owner x := by
  intro hold hyoung
  have hy : (h.collect kind roots).holdsYoung owner = true :=
    holdsYoung_iff.mpr ⟨hold, x, hx, hyoung⟩
  refine (mem_refs_collect ht kind roots).mpr ⟨?_, hy⟩
  cases kind with
  | major => exact mem_holdersOf_major ht roots (contains_of_holdsYoung hy)
  | minor =>
    rcases needsBarrier_of_collect ht .minor roots hold with ho | hm
    · have hmem := hw ho (isYoung_of_collect ht .minor roots hyoung)
      exact List.mem_append_left _ (by simpa using hmem)
    · exact List.mem_append_right _ hm

theorem guarded_collect {owner : Ref} (hb : h.Guarded owner) :
    (h.collect kind roots).Guarded owner := by
  intro hy
  obtain ⟨hold, x, hx, hyoung⟩ := holdsYoung_iff.mp hy
  have hx' := hx
  rw [children_collect ht kind roots (contains_of_holdsYoung hy)] at hx'
  exact watched_collect ht kind roots (hb.watched hx') hx hold hyoung

theorem barriered_collect (hb : h.Barriered) : (h.collect kind roots).Barriered :=
  fun owner => guarded_collect ht kind roots (hb owner)

end

end Managed.Heap
