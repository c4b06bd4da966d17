import Managed.Proofs.Space.Renamed

/-!
# Programs

A program does not know the handles it will be given. It is a list of operations in which a handle
stands for a number: it means the handle that an answer has given after so many others. Running an
operation means to put in the handles that its names mean (`Execution.step`). So one program can run in
several spaces, whatever handles they give out.

Renaming twice is renaming once, and what an operation becomes depends on the handles in it only.
-/

namespace Managed

/-! ## The handles in an operation -/

def RelationKey.refs : RelationKey → List Ref
  | text _ => []
  | identity r => [r]

/-- The handles in the storage of an array, in the keys of a relation and in the lists of a supplier,
whether they hold them or not. -/
def Object.inner : Object → List Ref
  | array a => a.storage.toList.filterMap id
  | relation r => r.buckets.flatMap fun b => b.key.refs ++ b.entries.flatMap (·.itemKey.refs)
  | supplier s => s.items ++ s.indexes
  | string _ => []

def Operation.inner : Operation → List Ref
  | alloc o => o.inner
  | _ => []

/-- All handles in an operation. -/
def Operation.names (op : Operation) : List Ref :=
  op.refs ++ op.inner

/-! ## Renaming twice -/

section

variable (f g : Ref → Ref)

theorem RelationKey.rename_rename (k : RelationKey) : (k.rename g).rename f = k.rename (f ∘ g) := by
  cases k <;> rfl

theorem Relation.rename_rename (r : Relation) : (r.rename g).rename f = r.rename (f ∘ g) := by
  simp [rename, Bucket.rename, RelationEntry.rename, Function.comp_def,
    RelationKey.rename_rename]

theorem Object.rename_rename (o : Object) : (o.rename g).rename f = o.rename (f ∘ g) := by
  cases o with
  | string text => rfl
  | array a => exact congrArg array (SlotArray.map_map g a f)
  | relation r => exact congrArg relation (Relation.rename_rename f g r)
  | supplier s => simp [rename, Supplier.rename, Function.comp_def]

theorem ArrayIndex.rename_rename (i : ArrayIndex) : (i.rename g).rename f = i.rename (f ∘ g) := by
  cases i with
  | numbers subscripts => rfl
  | objects arguments => simp [rename, Function.comp_def]

theorem Query.rename_rename (q : Query) : (q.rename g).rename f = q.rename (f ∘ g) := by
  cases q <;> simp [rename, ArrayIndex.rename_rename]

theorem Operation.rename_rename (op : Operation) : (op.rename g).rename f = op.rename (f ∘ g) := by
  cases op <;> simp [rename, ArrayIndex.rename_rename, Query.rename_rename, Object.rename_rename,
    Function.comp_def]

end

/-! ## Which handles matter -/

section

variable {f g : Ref → Ref}

theorem option_map_congr {slots : List (Option Ref)} (h : ∀ x ∈ slots.filterMap id, f x = g x) :
    slots.map (Option.map f) = slots.map (Option.map g) := by
  apply List.map_congr_left
  intro slot hslot
  cases slot with
  | none => rfl
  | some x => exact congrArg some (h x (List.mem_filterMap.mpr ⟨some x, hslot, rfl⟩))

theorem RelationKey.rename_congr {k : RelationKey} (h : ∀ x ∈ k.refs, f x = g x) :
    k.rename f = k.rename g := by
  cases k with
  | text value => rfl
  | identity r => exact congrArg identity (h r (List.mem_singleton.mpr rfl))

theorem Object.rename_congr {o : Object} (h : ∀ x ∈ Traced.refs o ++ o.inner, f x = g x) :
    o.rename f = o.rename g := by
  have hheld : ∀ x ∈ Traced.refs o, f x = g x := fun x hx => h x (List.mem_append_left _ hx)
  have hinner : ∀ x ∈ o.inner, f x = g x := fun x hx => h x (List.mem_append_right _ hx)
  cases o with
  | string text => rfl
  | array a =>
    have hstorage : a.storage.map (Option.map f) = a.storage.map (Option.map g) := by
      apply Array.toList_inj.mp
      rw [Array.toList_map, Array.toList_map]
      exact option_map_congr hinner
    simp only [rename, SlotArray.map, hstorage]
  | relation r =>
    have hbuckets : r.buckets.map (Bucket.rename f) = r.buckets.map (Bucket.rename g) := by
      apply List.map_congr_left
      intro b hb
      have hkey : b.key.rename f = b.key.rename g := RelationKey.rename_congr fun x hx =>
        hinner x (List.mem_flatMap.mpr ⟨b, hb, List.mem_append_left _ hx⟩)
      have hentries : b.entries.map (RelationEntry.rename f) =
          b.entries.map (RelationEntry.rename g) := by
        apply List.map_congr_left
        intro e he
        have hentry : e ∈ r.entries := Relation.mem_entries.mpr ⟨b, hb, he⟩
        have hitem : e.itemKey.rename f = e.itemKey.rename g := RelationKey.rename_congr fun x hx =>
          hinner x (List.mem_flatMap.mpr
            ⟨b, hb, List.mem_append_right _ (List.mem_flatMap.mpr ⟨e, he, hx⟩)⟩)
        simp only [RelationEntry.rename, hitem, hheld _ (Relation.index_mem_refs hentry),
          hheld _ (Relation.item_mem_refs hentry)]
      simp only [Bucket.rename, hkey, hentries]
    simp only [rename, Relation.rename, hbuckets]
  | supplier s =>
    have hitems : s.items.map f = s.items.map g :=
      List.map_congr_left fun x hx => hinner x (List.mem_append_left _ hx)
    have hindexes : s.indexes.map f = s.indexes.map g :=
      List.map_congr_left fun x hx => hinner x (List.mem_append_right _ hx)
    simp only [rename, Supplier.rename, hitems, hindexes]

theorem ArrayIndex.rename_congr {i : ArrayIndex} (h : ∀ x ∈ i.refs, f x = g x) :
    i.rename f = i.rename g := by
  cases i with
  | numbers subscripts => rfl
  | objects arguments => exact congrArg objects (option_map_congr h)

theorem Query.rename_congr {q : Query} (h : ∀ x ∈ q.refs, f x = g x) :
    q.rename f = q.rename g := by
  cases q with
  | itemAt r index =>
    obtain ⟨hr, hindex⟩ := List.forall_mem_cons.mp h
    simp only [rename, hr, ArrayIndex.rename_congr hindex]
  | hasItemAt r index =>
    obtain ⟨hr, hindex⟩ := List.forall_mem_cons.mp h
    simp only [rename, hr, ArrayIndex.rename_congr hindex]
  | relatedCount r index => cases index <;> simp_all [rename, refs]
  | _ => simp_all [rename, refs]

theorem Operation.rename_congr {op : Operation} (h : ∀ x ∈ op.names, f x = g x) :
    op.rename f = op.rename g := by
  have hrefs : ∀ x ∈ op.refs, f x = g x := fun x hx => h x (List.mem_append_left _ hx)
  cases op with
  | query q => exact congrArg query (Query.rename_congr hrefs)
  | alloc o => exact congrArg alloc (Object.rename_congr h)
  | arrayOf slots => exact congrArg arrayOf (option_map_congr hrefs)
  | relationSupplier r index => cases index <;> simp_all [rename, refs]
  | store r value index =>
    obtain ⟨hr, hrest⟩ := List.forall_mem_cons.mp hrefs
    obtain ⟨hvalue, hindex⟩ := List.forall_mem_cons.mp hrest
    simp only [rename, hr, hvalue, ArrayIndex.rename_congr hindex]
  | removeAt r index =>
    obtain ⟨hr, hindex⟩ := List.forall_mem_cons.mp hrefs
    simp only [rename, hr, ArrayIndex.rename_congr hindex]
  | insert r value target => cases value <;> simp_all [rename, refs]
  | insertAfter r value position => cases value <;> simp_all [rename, refs]
  | _ => simp_all [rename, refs]

end

/-! ## The handles after a renaming -/

section

variable (f : Ref → Ref)

theorem filterMap_option_map (slots : List (Option Ref)) :
    (slots.map (Option.map f)).filterMap id = (slots.filterMap id).map f := by
  simp [List.filterMap_map, List.map_filterMap]

theorem ArrayIndex.refs_rename (i : ArrayIndex) : (i.rename f).refs = i.refs.map f := by
  cases i with
  | numbers subscripts => rfl
  | objects arguments => exact filterMap_option_map f arguments

theorem Query.refs_rename (q : Query) : (q.rename f).refs = q.refs.map f := by
  cases q with
  | relatedCount r index => cases index <;> rfl
  | _ => simp [rename, refs, ArrayIndex.refs_rename]

theorem Operation.refs_rename (op : Operation) : (op.rename f).refs = op.refs.map f := by
  cases op with
  | query q => exact Query.refs_rename f q
  | alloc o => exact Object.refs_rename f o
  | arrayOf slots => exact filterMap_option_map f slots
  | relationSupplier r index => cases index <;> rfl
  | insert r value target => cases value <;> rfl
  | insertAfter r value position => cases value <;> rfl
  | _ => simp [rename, refs, ArrayIndex.refs_rename]

theorem Answer.refs_rename (a : Answer) : (a.rename f).refs = a.refs.map f := by
  cases a with
  | found r => cases r <;> rfl
  | key k => cases k <;> rfl
  | object o => exact Object.refs_rename f o
  | _ => rfl

end

/-! ## Runs -/

/-- What an operation returns. -/
def outcome : EStateM.Result Fault Space Answer → Except Fault Answer
  | .ok a _ => .ok a
  | .error e _ => .error e

/-- The handles that a result gives. -/
def refsGiven : Except Fault Answer → List Ref
  | .ok a => a.refs
  | .error _ => []

theorem refsGiven_map (f : Ref → Ref) (result : Except Fault Answer) :
    refsGiven (result.map (Answer.rename f)) = (refsGiven result).map f := by
  cases result with
  | ok a => exact Answer.refs_rename f a
  | error fault => rfl

/-- The handle that a name means, once the given handles have been given. -/
def meaning (given : List Ref) (name : Ref) : Ref :=
  given.getD name.index name

def Operation.isCollect : Operation → Bool
  | collect _ => true
  | _ => false

/-- The operations that are not collections, in their order. -/
def program (ops : List Operation) : List Operation :=
  ops.filter fun op => !op.isCollect

theorem program_cons {op : Operation} (hop : op.isCollect = false) (ops : List Operation) :
    program (op :: ops) = op :: program ops := by
  simp [program, hop]

/-- A run of a program: a space with its record, the handles that answers have given, and what the
operations have returned, collections apart. -/
structure Execution where
  track : Track
  given : List Ref := []
  results : List (Except Fault Answer) := []

namespace Execution

def start (limits : SpaceLimits) : Execution :=
  { track := .start limits }

def space (e : Execution) : Space :=
  e.track.space

/-- The operation with the handles that its names mean. -/
def actual (e : Execution) (op : Operation) : Operation :=
  op.rename (meaning e.given)

/-- What an operation of the program returns now. -/
def result (e : Execution) (op : Operation) : Except Fault Answer :=
  outcome ((e.actual op).run e.space)

def step (e : Execution) (op : Operation) : Execution :=
  { track := e.track.step (e.actual op)
    given := e.given ++ refsGiven (e.result op)
    results := if op.isCollect then e.results else e.results ++ [e.result op] }

def run (e : Execution) (ops : List Operation) : Execution :=
  ops.foldl step e

end Execution

end Managed
