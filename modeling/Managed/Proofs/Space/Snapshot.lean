import Managed.Proofs.SlotArray.Sequence
import Managed.Proofs.Space.Coherence
import Managed.Proofs.Space.Keys

/-!
# What suppliers supply

A supplier is made of the items of an array or a relation, each with its index, and walks over them
whatever happens to the array or the relation afterwards. It shows one pair after the other, in order,
until none remains (`Shows`, `supplier_walks_snapshot`).

As long as a supplier is there, so are the objects that it still holds, if they were there when it was
made. Either a collection that keeps the supplier comes to them through it, or the supplier is old and
they are young, and then the supplier is remembered (`Supplying`). The argument is about the supplier
alone. It goes through where barriers for other objects are missing.
-/

namespace Managed

/-- What a supplier is made of. -/
inductive Origin where
  | array (r : Ref)
  | relation (r : Ref) (index : Option Ref)

/-- The operation that makes the supplier. -/
def Origin.supply : Origin → Operation
  | array r => .arraySupplier r
  | relation r index => .relationSupplier r index

/-- How many pairs an operation makes a supplier pass. -/
def Operation.passes (op : Operation) (sup : Ref) (s : Space) : Nat :=
  match op, op.run s with
  | .advance r, .ok _ _ => if r = sup then 1 else 0
  | _, _ => 0

theorem Operation.passes_eq_zero {op : Operation} (hop : ∀ r, op ≠ .advance r) (sup : Ref)
    (s : Space) : op.passes sup s = 0 := by
  unfold passes
  split
  · exact absurd rfl (hop _)
  · rfl

namespace Space

/-! ## Index objects -/

/-- Whether `x` names an object that stands for the given subscripts: a string for one of them, an array
of strings for more. -/
def Denotes (s : Space) (x : Ref) (subscripts : List Nat) : Prop :=
  (∃ position, subscripts = [position] ∧ s.heap.get? x = some (.string (toString position))) ∨
    subscripts.length ≠ 1 ∧ ∃ a, s.array x = .ok a ∧
      List.Forall₂ (fun slot n => ∃ y, slot = some y ∧ s.heap.get? y = some (.string (toString n)))
        a.slots.toList subscripts

/-- Whether `pairs` are the items of a collection of the space `s` with their indexes, in order. The
indexes of an array are objects of the space `t`. -/
def Lists (s t : Space) (pairs : List (Ref × Ref)) : Origin → Prop
  | .array r => ∃ a, s.array r = .ok a ∧
      List.Forall₂ (fun p e => p.1 = e.2 ∧ t.Denotes p.2 (a.subscriptsOf e.1)) pairs a.entries
  | .relation r none => ∃ a, s.relation r = .ok a ∧ pairs = a.pairs.map Prod.swap
  | .relation r (some index) => ∃ a key, s.relation r = .ok a ∧ s.valueKey index = .ok key ∧
      pairs = (a.pairsAt key).map Prod.swap

section

variable {s t u : Space} {x : Ref}

theorem map_eq_ok {β γ : Type} {f : β → γ} {m : SpaceM β} {c : γ} (h : (f <$> m) s = .ok c t) :
    ∃ b, m s = .ok b t ∧ f b = c := by
  simp only [Functor.map, EStateM.map] at h
  cases hm : m s with
  | error e u =>
    rw [hm] at h
    cases h
  | ok b u =>
    rw [hm] at h
    obtain ⟨rfl, rfl⟩ := EStateM.Result.ok.inj h
    exact ⟨b, rfl, rfl⟩

theorem alloc_eq_ok {o : Object} (h : alloc o s = .ok x t) :
    ∃ heap, s.heap.alloc o = .ok (x, heap) ∧ t = { s with heap } := by
  unfold alloc at h
  split at h
  · next r heap ha =>
    obtain ⟨rfl, rfl⟩ := EStateM.Result.ok.inj h
    exact ⟨heap, ha, rfl⟩
  · cases h

/-- A new object is there. -/
theorem get?_of_alloc (ht : s.heap.Tidy) {o : Object} (h : alloc o s = .ok x t) :
    t.heap.get? x = some o := by
  obtain ⟨heap, ha, rfl⟩ := alloc_eq_ok h
  exact ((Heap.alloc_cases ha ht.free_vacant).get? x).trans (if_pos rfl)

/-- It is young. -/
theorem watched_of_alloc (ht : s.heap.Tidy) {o : Object} (h : alloc o s = .ok x t) (y : Ref) :
    t.heap.Watched x y := by
  obtain ⟨heap, ha, rfl⟩ := alloc_eq_ok h
  intro hold
  exact absurd rfl ((Heap.alloc_cases ha ht.free_vacant).needsBarrier hold).1

/-- New objects stand for what they were made to stand for, until the last of them is made. -/
theorem forall₂_mapM {β : Type} {make : β → SpaceM Ref} (stands : Space → Ref → β → Prop)
    (hmakes : ∀ b s, Makes s (left (make b s)))
    (hstands : ∀ b s t x, s.heap.Tidy → make b s = .ok x t → stands t x b)
    (hkeeps : ∀ b s t x, s.heap.Tidy → Makes s t → stands s x b → stands t x b)
    {bs : List β} {refs : List Ref} (ht : s.heap.Tidy) (h : bs.mapM make s = .ok refs t) :
    List.Forall₂ (stands t) refs bs := by
  induction bs generalizing s refs with
  | nil =>
    rw [List.mapM_nil] at h
    cases h
    exact .nil
  | cons b rest ih =>
    rw [List.mapM_cons] at h
    obtain ⟨x, u, hx, h⟩ := bind_eq_ok_state h
    obtain ⟨xs, v, hxs, hv⟩ := bind_eq_ok_state h
    cases hv
    have hu : Makes s u := (hmakes b s).of_ok hx
    have hv : Makes u t := (makes_mapM hmakes rest u).of_ok hxs
    have htu := tidy_makes hu ht
    exact .cons (hkeeps b u t x htu hv (hstands b s u x ht hx)) (ih htu hxs)

/-- Index objects stand for the same subscripts where strings and arrays are the same. -/
theorem Denotes.of_kept {subscripts : List Nat}
    (hstring : ∀ y text, s.heap.get? y = some (.string text) → t.heap.get? y = some (.string text))
    (harray : ∀ y a, s.array y = .ok a → t.array y = .ok a) (hx : s.Denotes x subscripts) :
    t.Denotes x subscripts := by
  rcases hx with ⟨position, rfl, hx⟩ | ⟨hmany, a, ha, hslots⟩
  · exact Or.inl ⟨position, rfl, hstring _ _ hx⟩
  · refine Or.inr ⟨hmany, a, harray _ _ ha, ?_⟩
    refine hslots.imp fun slot n hn => ?_
    obtain ⟨y, rfl, hy⟩ := hn
    exact ⟨y, rfl, hstring _ _ hy⟩

theorem Makes.array (h : Makes s t) (ht : s.heap.Tidy) {a : SlotArray Ref} (ha : s.array x = .ok a) :
    t.array x = .ok a :=
  array_eq_ok.mpr (h.get? ht (array_eq_ok.mp ha))

theorem Denotes.of_makes {subscripts : List Nat} (ht : s.heap.Tidy) (h : Makes s t)
    (hx : s.Denotes x subscripts) : t.Denotes x subscripts :=
  hx.of_kept (fun _ _ => h.get? ht) fun _ _ => h.array ht

theorem arrayOfItems_eq_ok {items : List Ref} (ht : s.heap.Tidy)
    (h : arrayOfItems items s = .ok x t) :
    ∃ a, t.array x = .ok a ∧ a.slots.toList = items.map some := by
  obtain ⟨a, ha, h⟩ := ask_bind_eq_ok h
  exact ⟨a, array_eq_ok.mpr (get?_of_alloc ht h), SlotArray.toList_ofSlots ha⟩

theorem denotes_indexObject {subscripts : List Nat} (ht : s.heap.Tidy)
    (h : indexObject subscripts s = .ok x t) : t.Denotes x subscripts := by
  unfold indexObject at h
  split at h
  · next position => exact Or.inl ⟨position, rfl, get?_of_alloc ht h⟩
  · next hmany =>
    obtain ⟨refs, u, hrefs, h⟩ := bind_eq_ok_state h
    have hu : Makes s u := (makes_mapM makes_newString _ s).of_ok hrefs
    have hv : Makes u t := (makes_arrayOfItems refs u).of_ok h
    have htu := tidy_makes hu ht
    obtain ⟨a, ha, hslots⟩ := arrayOfItems_eq_ok htu h
    have hstrings : List.Forall₂ (fun y text => u.heap.get? y = some (.string text)) refs
        (subscripts.map toString) :=
      forall₂_mapM (fun u y text => u.heap.get? y = some (.string text)) makes_newString
        (fun _ _ _ _ ht h => get?_of_alloc ht h) (fun _ _ _ _ ht hm => hm.get? ht) ht hrefs
    refine Or.inr ⟨?_, a, ha, ?_⟩
    · intro hone
      obtain ⟨position, hposition⟩ := List.length_eq_one_iff.mp hone
      exact hmany position hposition
    · rw [hslots, List.forall₂_map_left_iff]
      rw [List.forall₂_map_right_iff] at hstrings
      exact hstrings.imp fun y n hy => ⟨y, rfl, hv.get? htu hy⟩

theorem denotes_indexObjects {r : Ref} {a : SlotArray Ref} {indexes : List Ref} (ht : s.heap.Tidy)
    (ha : s.array r = .ok a) (h : indexObjects r s = .ok indexes t) :
    List.Forall₂ (fun x e => t.Denotes x (a.subscriptsOf e.1)) indexes a.entries := by
  obtain ⟨b, hb, h⟩ := ask_bind_eq_ok h
  rw [ha] at hb
  cases hb
  have hall := forall₂_mapM Denotes makes_indexObject (fun _ _ _ _ => denotes_indexObject)
    (fun _ _ _ _ => Denotes.of_makes) ht h
  rwa [SlotArray.allIndexes, List.map_map, List.forall₂_map_right_iff] at hall

theorem forall₂_zip {β : Type} {R : Ref → β × Ref → Prop} {xs : List Ref} {es : List (β × Ref)}
    (h : List.Forall₂ R xs es) :
    List.Forall₂ (fun p e => p.1 = e.2 ∧ R p.2 e) ((es.map Prod.snd).zip xs) es := by
  induction h with
  | nil => exact .nil
  | cons hx _ ih => exact .cons ⟨rfl, hx⟩ ih

/-- A supplier is made of what its collection has. It is young. -/
theorem lists_of_supply {origin : Origin} {sup : Ref} (ht : s.heap.Tidy)
    (h : origin.supply.run s = .ok (.ref sup) t) :
    ∃ pairs, Lists s t pairs origin ∧ t.heap.get? sup = some (.supplier (.ofPairs pairs)) ∧
      ∀ x, t.heap.Watched sup x := by
  cases origin with
  | array r =>
    obtain ⟨_, h, ⟨⟩⟩ := map_eq_ok h
    obtain ⟨a, ha, h⟩ := ask_bind_eq_ok h
    obtain ⟨indexes, u, hindexes, h⟩ := bind_eq_ok_state h
    have hu : Makes s u := (makes_indexObjects r s).of_ok hindexes
    have hv : Makes u t := (makes_alloc (.supplier _)).of_ok h
    have htu := tidy_makes hu ht
    have hdenotes := denotes_indexObjects ht ha hindexes
    have hget := get?_of_alloc htu h
    rw [Supplier.ofLists_eq_ofPairs (by rw [SlotArray.allItems, List.length_map, hdenotes.length_eq])]
      at hget
    refine ⟨a.allItems.zip indexes, ⟨a, ha, ?_⟩, hget, watched_of_alloc htu h⟩
    refine (forall₂_zip hdenotes).imp fun p e hp => ?_
    exact ⟨hp.1, hp.2.of_makes htu hv⟩
  | relation r index =>
    obtain ⟨_, h, ⟨⟩⟩ := map_eq_ok h
    obtain ⟨pairs, hpairs, h⟩ := ask_bind_eq_ok h
    have hget := get?_of_alloc ht h
    rw [Supplier.ofLists_eq_ofPairs (by simp), List.zip_map'] at hget
    refine ⟨pairs.map Prod.swap, ?_, hget, watched_of_alloc ht h⟩
    cases index with
    | none =>
      obtain ⟨a, ha, ⟨⟩⟩ := bind_eq_ok hpairs
      exact ⟨a, ha, rfl⟩
    | some index =>
      obtain ⟨key, hkey, hpairs⟩ := bind_eq_ok hpairs
      obtain ⟨a, ha, ⟨⟩⟩ := bind_eq_ok hpairs
      exact ⟨a, key, ha, hkey, rfl⟩

end

/-! ## A supplier among other objects -/

/-- What is known of a space in which `sup` is a supplier that has `rest` before it. Of the objects that
it holds, those in `kept` are there. -/
structure Supplying (sup : Ref) (kept : Ref → Prop) (rest : List (Ref × Ref)) (s : Space) : Prop where
  tidy : s.heap.Tidy
  supplier : ∃ x : Supplier, s.heap.get? sup = some (.supplier x) ∧ x.Has rest
  live : ∀ x ∈ s.heap.children sup, kept x → s.heap.contains x = true
  watched : ∀ x ∈ s.heap.children sup, kept x → s.heap.Watched sup x

section

variable {sup : Ref} {kept : Ref → Prop} {rest : List (Ref × Ref)} {s t : Space} {op : Operation}
  {ended : Bool}

theorem supplying_alloc (hs : Supplying sup kept rest s) {o : Object} {r : Ref} {heap : Heap Object}
    (ha : s.heap.alloc o = .ok (r, heap)) : Supplying sup kept rest { s with heap } := by
  have halloc := Heap.alloc_cases ha hs.tidy.free_vacant
  obtain ⟨a, hsup, ha⟩ := hs.supplier
  have hget : heap.get? sup = some (.supplier a) := halloc.get?_of_get? hsup
  have hchildren : heap.children sup = s.heap.children sup := by
    rw [Heap.children, Heap.children, hget, hsup]
  refine ⟨halloc.tidy hs.tidy, ⟨a, hget, ha⟩, fun x hx hk => ?_, fun x hx hk => ?_⟩
  · rw [hchildren] at hx
    exact halloc.contains_of_contains (hs.live x hx hk)
  · rw [hchildren] at hx
    refine halloc.watched (hs.watched x hx hk) ?_
    rintro rfl
    have hlive := hs.live x hx hk
    rw [Heap.contains, halloc.stale] at hlive
    cases hlive

theorem supplying_makes (h : Makes s t) (hs : Supplying sup kept rest s) :
    Supplying sup kept rest t := by
  induction h with
  | refl => exact hs
  | alloc _ ha _ ih => exact ih (supplying_alloc hs ha)

/-- Objects are replaced, the supplier by one that has less before it. -/
theorem supplying_stored (hs : Supplying sup kept rest s) {r : Ref} {old new : Object}
    (hr : s.heap.get? r = some old) {a : Supplier} {rest' : List (Ref × Ref)}
    (hsup : (if sup = r then some new else s.heap.get? sup) = some (.supplier a)) (ha : a.Has rest')
    (hsub : ∀ p ∈ rest', p ∈ rest) (handles : List Ref) :
    Supplying sup kept rest' (s.stored r new handles) := by
  have hget := (get?_stored hs.tidy hr new handles sup).trans hsup
  obtain ⟨b, hb, hrest⟩ := hs.supplier
  have hchildren : ∀ x ∈ (s.stored r new handles).heap.children sup, x ∈ s.heap.children sup := by
    intro x hx
    rw [Heap.children, hget] at hx
    rw [Heap.children, hb]
    obtain ⟨p, hp, hxp⟩ := ha.mem_refs.mp hx
    exact hrest.mem_refs.mpr ⟨p, hsub p hp, hxp⟩
  refine ⟨tidy_stored hs.tidy r new handles, ⟨a, hget, ha⟩, fun x hx hk => ?_, fun x hx hk => ?_⟩
  · rw [contains_stored hs.tidy]
    exact hs.live x (hchildren x hx) hk
  · rw [stored_of_live hr, setObject_of_live hr]
    exact Heap.watched_store hs.tidy (hs.watched x (hchildren x hx) hk) r new handles

theorem supplying_tenure (hs : Supplying sup kept rest s) {r : Ref} {heap : Heap Object}
    (ht : s.heap.tenure r = .ok heap) : Supplying sup kept rest { s with heap } := by
  rcases Heap.tenure_cases ht with rfl | rfl
  · exact hs
  · have hsame := Heap.sameObjects_rememberHolder (s.heap.tenured r) r
    have hget : ((s.heap.tenured r).rememberHolder r).get? sup = s.heap.get? sup := by
      rw [hsame.get?, Heap.get?_tenured]
    have hchildren : ((s.heap.tenured r).rememberHolder r).children sup = s.heap.children sup := by
      rw [hsame.children, Heap.children_tenured]
    refine ⟨Heap.tidy_rememberHolder (Heap.tidy_tenured hs.tidy r) r, ?_, fun x hx hk => ?_,
      fun x hx hk => ?_⟩
    · dsimp only
      rw [hget]
      exact hs.supplier
    · rw [hchildren] at hx
      dsimp only
      rw [hsame.contains, (Heap.samePlaces_tenured s.heap r).contains]
      exact hs.live x hx hk
    · rw [hchildren] at hx
      exact Heap.watched_tenured hs.tidy (hs.watched x hx hk) hx r

/-- A supplier that survives keeps what it holds. -/
theorem supplying_collect (hs : Supplying sup kept rest s) {kind : CollectionKind}
    (hlive : (s.heap.collect kind s.roots).contains sup = true) :
    Supplying sup kept rest { s with heap := s.heap.collect kind s.roots } := by
  have ht := hs.tidy
  have hspared : s.heap.contains sup = true ∧ s.heap.spares kind s.roots sup = true := by
    rwa [Heap.contains_collect ht, Bool.and_eq_true] at hlive
  have hchildren := Heap.children_collect ht kind s.roots hlive
  refine ⟨Heap.tidy_collect ht kind s.roots, ?_, fun x hx hk => ?_, fun x hx hk => ?_⟩
  · dsimp only
    rw [Heap.get?_collect ht, if_pos hspared.2]
    exact hs.supplier
  · rw [hchildren] at hx
    dsimp only
    rw [Heap.contains_collect ht, Bool.and_eq_true]
    refine ⟨hs.live x hx hk, ?_⟩
    exact Heap.spared_of_watched ht kind s.roots (hs.watched x hx hk) hspared.1 hspared.2 hx
  · exact Heap.watched_collect ht kind s.roots (hs.watched x (by rwa [hchildren] at hx) hk) hx

theorem supplying_effect (h : Effect s op ended t) (hs : Supplying sup kept rest s)
    (hop : ∀ r, op ≠ .advance r) (hlive : t.heap.contains sup = true) :
    Supplying sup kept rest t := by
  cases h with
  | made hm => exact supplying_makes hm hs
  | given _ ha => exact supplying_alloc hs ha
  | @altered _ r old new handles hr halters =>
    obtain ⟨a, hsup, ha⟩ := hs.supplier
    refine supplying_stored hs hr (a := a) ?_ ha (fun p hp => hp) handles
    split
    · next heq =>
      -- only its own step puts something in the place of a supplier
      rw [← heq, hsup] at hr
      cases hr
      cases halters with
      | advance h => exact absurd h (hop _)
    · exact hsup
  | tenured hten => exact supplying_tenure hs hten
  | rooted _ => exact ⟨hs.tidy, hs.supplier, hs.live, hs.watched⟩
  | collected _ => exact supplying_collect hs hlive

theorem supplying_setObject (hs : Supplying sup kept rest s) {r : Ref} (hne : r ≠ sup) (o : Object) :
    Supplying sup kept rest (s.setObject r o) := by
  cases hr : s.heap.get? r with
  | none => rwa [setObject_of_stale hr]
  | some old =>
    obtain ⟨a, hsup, ha⟩ := hs.supplier
    rw [← stored_nil]
    exact supplying_stored hs hr ((if_neg hne.symm).trans hsup) ha (fun p hp => hp) []

/-- An operation makes the supplier pass a pair or leaves it as it is. -/
theorem supplying_run (hs : Supplying sup kept rest s) (op : Operation)
    (hlive : (left (op.run s)).heap.contains sup = true) :
    op.passes sup s ≤ rest.length ∧
      Supplying sup kept (rest.drop (op.passes sup s)) (left (op.run s)) := by
  by_cases hop : ∃ r, op = .advance r
  · obtain ⟨r, rfl⟩ := hop
    cases hn : s.supplier r >>= Supplier.next with
    | error e =>
      have hrun : (Operation.advance r).run s = .error e s := by
        simp only [Operation.run, Functor.map, EStateM.map, advance, hn]
      simp only [Operation.passes, hrun]
      exact ⟨Nat.zero_le _, hs⟩
    | ok next =>
      have hrun : (Operation.advance r).run s = .ok .done (s.setObject r (.supplier next)) := by
        simp only [Operation.run, Functor.map, EStateM.map, advance, hn]
      simp only [Operation.passes, hrun]
      split
      · next hsup =>
        subst hsup
        obtain ⟨a, hsup, ha⟩ := hs.supplier
        rw [supplier_eq_ok.mpr hsup] at hn
        cases rest with
        | nil => cases hn.symm.trans ha.next_nil
        | cons p rest =>
          obtain ⟨b, hb, hrest⟩ := ha.next
          obtain rfl : b = next := Except.ok.inj (hb.symm.trans hn)
          refine ⟨Nat.succ_le_succ (Nat.zero_le _), ?_⟩
          rw [left, ← stored_nil]
          exact supplying_stored hs hsup (if_pos rfl) hrest (fun q hq => List.mem_cons_of_mem p hq) []
      · next hne => exact ⟨Nat.zero_le _, supplying_setObject hs hne _⟩
  · have hne : ∀ r, op ≠ .advance r := fun r h => hop ⟨r, h⟩
    rw [op.passes_eq_zero hne]
    exact ⟨Nat.zero_le _, supplying_effect (effect_run op s) hs hne hlive⟩

end

/-! ## Whole courses -/

/-- What can happen to a space while the supplier `sup` is there. Operations of all kinds, successful or
not, come one after the other, and other objects may be replaced without the knowledge of the space. The
number says how many pairs the supplier has passed. -/
inductive Course (sup : Ref) : Space → Nat → Space → Prop where
  | refl (s : Space) : Course sup s 0 s
  | run {s t : Space} {n : Nat} (op : Operation) :
    (left (op.run s)).heap.contains sup = true → Course sup (left (op.run s)) n t →
    Course sup s (op.passes sup s + n) t
  | replace {s t : Space} {n : Nat} {r : Ref} (o : Object) :
    r ≠ sup → Course sup (s.setObject r o) n t → Course sup s n t

theorem supplying_course {sup : Ref} {kept : Ref → Prop} {rest : List (Ref × Ref)} {s t : Space}
    {n : Nat} (h : Course sup s n t) (hs : Supplying sup kept rest s) :
    n ≤ rest.length ∧ Supplying sup kept (rest.drop n) t := by
  induction h generalizing rest with
  | refl => exact ⟨Nat.zero_le _, hs⟩
  | run op hlive _ ih =>
    obtain ⟨hle, hs'⟩ := supplying_run hs op hlive
    obtain ⟨hle', ht⟩ := ih hs'
    rw [List.length_drop] at hle'
    rw [List.drop_drop] at ht
    exact ⟨by omega, ht⟩
  | replace o hne _ ih => exact ih (supplying_setObject hs hne o)

/-- What a supplier shows of `pairs` in the space `u` when it has passed `n` of them. What was there in the
space `t` still is, when the supplier shows it. -/
structure Shows (sup : Ref) (pairs : List (Ref × Ref)) (t : Space) (n : Nat) (u : Space) : Prop where
  passed : n ≤ pairs.length
  available : u.available sup = .ok (decide (n < pairs.length))
  current : ∀ item index, pairs[n]? = some (item, index) →
    u.suppliedItem sup = .ok item ∧ u.suppliedIndex sup = .ok index ∧
    (t.heap.contains item = true → u.heap.contains item = true) ∧
    (t.heap.contains index = true → u.heap.contains index = true) ∧
    ∃ v, advance sup u = .ok () v
  exhausted : n = pairs.length →
    u.suppliedItem sup = .error .supplierExhausted ∧
    u.suppliedIndex sup = .error .supplierExhausted ∧
    advance sup u = .error .supplierExhausted u

theorem shows_of_supplying {sup : Ref} {pairs : List (Ref × Ref)} {t u : Space} {n : Nat}
    (hn : n ≤ pairs.length)
    (hu : Supplying sup (fun x => t.heap.contains x = true) (pairs.drop n) u) :
    Shows sup pairs t n u := by
  obtain ⟨a, hget, ha⟩ := hu.supplier
  have hsup : u.supplier sup = .ok a := supplier_eq_ok.mpr hget
  refine ⟨hn, ?_, fun item index hcurrent => ?_, fun hend => ?_⟩
  · have hleft : (!(pairs.drop n).isEmpty) = decide (n < pairs.length) := by
      rw [Bool.eq_iff_iff]
      simp
    rw [Space.available, hsup, ← hleft, ← ha.available]
    rfl
  · have hlt : n < pairs.length := (List.getElem?_eq_some_iff.mp hcurrent).1
    have hdrop : pairs.drop n = (item, index) :: pairs.drop (n + 1) := by
      rw [List.drop_eq_getElem_cons hlt, (List.getElem?_eq_some_iff.mp hcurrent).2]
    rw [hdrop] at ha
    have hheld : ∀ x, x = item ∨ x = index → x ∈ u.heap.children sup := fun x hx =>
      mem_children hget (ha.mem_refs.mpr ⟨(item, index), List.mem_cons_self, hx⟩)
    refine ⟨?_, ?_, hu.live item (hheld item (Or.inl rfl)), hu.live index (hheld index (Or.inr rfl)),
      ?_⟩
    · rw [suppliedItem, hsup]
      exact ha.item
    · rw [suppliedIndex, hsup]
      exact ha.index
    · obtain ⟨b, hb, _⟩ := ha.next
      have hnext : u.supplier sup >>= Supplier.next = .ok b := by rw [hsup]; exact hb
      rw [advance, hnext]
      exact ⟨_, rfl⟩
  · rw [hend, List.drop_length] at ha
    refine ⟨?_, ?_, ?_⟩
    · rw [suppliedItem, hsup]
      exact ha.item
    · rw [suppliedIndex, hsup]
      exact ha.index
    · have hnext : u.supplier sup >>= Supplier.next = .error .supplierExhausted := by
        rw [hsup]
        exact ha.next_nil
      rw [advance, hnext]

end Space

namespace Track

/-- Whether an object can be reached from the roots at each collection of a run. -/
def Retains (t : Track) (r : Ref) : List Operation → Prop
  | [] => True
  | op :: rest =>
    (∀ kind, op = .collect kind → t.space.heap.Reaches t.space.roots.toList r) ∧
      (t.step op).Retains r rest

/-- How many pairs a run makes a supplier pass. -/
def passed (t : Track) (sup : Ref) : List Operation → Nat
  | [] => 0
  | op :: rest => op.passes sup t.space + (t.step op).passed sup rest

/-- A run in which handles of the space alone are used and no operation stops half-way, no slot is freed
`2 ^ 32` times and no array takes up all words. -/
structure Regular (limits : SpaceLimits) (ops : List Operation) : Prop where
  lawful : (start limits).Lawful Word.max ops
  whole : (start limits).Whole ops
  freed : ∀ i, ((start limits).run ops).freed i < 2 ^ 32
  roomy : ∀ n r a, ((start limits).run (ops.take n)).space.array r = .ok a → a.capacity < Word.max

/-- What can be reached from the roots at each collection is there all the time. -/
theorem course_of_retains {brought : Nat} {t : Track} (hs : t.Sound brought) {ops : List Operation}
    (hl : t.Lawful brought ops) (hw : t.Whole ops) (hf : ∀ i, (t.run ops).freed i < 2 ^ 32)
    (hroom : ∀ n r a, (t.run (ops.take n)).space.array r = .ok a → a.capacity < Word.max) {sup : Ref}
    (hr : t.Retains sup ops) (hlive : t.space.heap.contains sup = true) :
    Space.Course sup t.space (t.passed sup ops) (t.run ops).space := by
  induction ops generalizing t with
  | nil => exact .refl _
  | cons op rest ih =>
    have hstep : (t.step op).Sound brought := sound_run hl hf hroom 1 hs hw
    have hlive' : (t.step op).space.heap.contains sup = true := by
      by_cases hop : ∃ kind, op = .collect kind
      · obtain ⟨kind, rfl⟩ := hop
        rw [heap_collect, Heap.contains_collect hs.grounded.tidy, hlive,
          Heap.spared_of_reaches hs.grounded.tidy kind t.space.roots hs.barriered (hr.1 kind rfl)]
        rfl
      · exact Space.contains_effect (Space.effect_run op t.space) hs.grounded.tidy
          (fun kind h => hop ⟨kind, h⟩) hlive
    exact .run op hlive' (ih hstep hl.2.2 hw.2 hf (fun m => hroom (m + 1)) hr.2 hlive')

theorem run_append (t : Track) (before after : List Operation) :
    t.run (before ++ after) = (t.run before).run after :=
  List.foldl_append

theorem Lawful.after {brought : Nat} {t : Track} {before after : List Operation}
    (h : t.Lawful brought (before ++ after)) : (t.run before).Lawful brought after := by
  induction before generalizing t with
  | nil => exact h
  | cons op rest ih => exact ih h.2.2

theorem Whole.after {t : Track} {before after : List Operation} (h : t.Whole (before ++ after)) :
    (t.run before).Whole after := by
  induction before generalizing t with
  | nil => exact h
  | cons op rest ih => exact ih h.2

/-- The second part of a regular run. -/
theorem Regular.course {limits : SpaceLimits} {before after : List Operation}
    (h : Regular limits (before ++ after)) {sup : Ref}
    (hr : ((start limits).run before).Retains sup after)
    (hlive : ((start limits).run before).space.heap.contains sup = true) :
    Space.Course sup ((start limits).run before).space (((start limits).run before).passed sup after)
      ((start limits).run (before ++ after)).space := by
  have hsound := sound_run h.lawful h.freed h.roomy before.length (sound_start _ limits) h.whole
  rw [List.take_left] at hsound
  rw [run_append]
  refine course_of_retains hsound h.lawful.after h.whole.after (fun i => ?_) (fun n => ?_) hr hlive
  · rw [← run_append]
    exact h.freed i
  · have hroomy := h.roomy (before.length + n)
    rwa [List.take_length_add_append, run_append] at hroomy

end Track

namespace Space

section

variable {s t : Space} {origin : Origin} {sup : Ref}

/-- When a supplier has been made, it has all its pairs before it. -/
theorem supplying_of_supply (ht : s.heap.Tidy) (h : origin.supply.run s = .ok (.ref sup) t) :
    ∃ pairs, Lists s t pairs origin ∧
      Supplying sup (fun x => t.heap.contains x = true) pairs t := by
  obtain ⟨pairs, hlists, hsup, hwatched⟩ := lists_of_supply ht h
  have htidy := tidy_effect (effect_run origin.supply s) ht
  rw [h] at htidy
  exact ⟨pairs, hlists, htidy, ⟨_, hsup, Supplier.has_ofPairs pairs⟩, fun _ _ hx => hx,
    fun x _ _ => hwatched x⟩

/-- What a relation holds is there if its keys are true. -/
theorem contains_of_lists (hs : s.Keyed) {pairs : List (Ref × Ref)} {r : Ref} {index : Option Ref}
    (h : Lists s t pairs (.relation r index)) {p : Ref × Ref} (hp : p ∈ pairs) :
    s.heap.contains p.1 = true ∧ s.heap.contains p.2 = true := by
  have hmem : ∃ a, s.relation r = .ok a ∧ p.swap ∈ a.pairs := by
    cases index with
    | none =>
      obtain ⟨a, ha, rfl⟩ := h
      obtain ⟨q, hq, rfl⟩ := List.mem_map.mp hp
      exact ⟨a, ha, by rwa [Prod.swap_swap]⟩
    | some index =>
      obtain ⟨a, key, ha, _, rfl⟩ := h
      obtain ⟨q, hq, rfl⟩ := List.mem_map.mp hp
      exact ⟨a, ha, by rw [Prod.swap_swap]; exact Relation.mem_pairs_of_pairsAt hq⟩
  obtain ⟨a, ha, hpairs⟩ := hmem
  obtain ⟨hindex, hitem⟩ := Relation.mem_refs_of_pairs hpairs
  exact ⟨hs.live ha hitem, hs.live ha hindex⟩

end

/-- A supplier shows the items that its collection had when it was made, with their indexes, one after the
other and in order, whatever happens to the collection and to other objects as long as the supplier is
there. In a regular run it is there if the roots reach it at each collection. What the supplier holds is
not lost before it has been passed, even if nothing else holds it. When all is passed, the supplier says
so and changes no more. A relation holds nothing that is lost already; an array may
(`supplier_not_walked`). -/
theorem supplier_walks_snapshot {s t : Space} (hs : s.Reachable) {origin : Origin} {sup : Ref}
    (hmade : origin.supply.run s = .ok (.ref sup) t) :
    ∃ pairs, Lists s t pairs origin ∧
      (∀ n u, Course sup t n u → Shows sup pairs t n u) ∧
      ∀ limits before, s = ((Track.start limits).run before).space →
        ((∀ op ∈ before, ∀ a, op = .alloc (.relation a) → a = {}) →
          ∀ r index, origin = .relation r index →
            ∀ p ∈ pairs, t.heap.contains p.1 = true ∧ t.heap.contains p.2 = true) ∧
        ∀ after, Track.Regular limits (before ++ origin.supply :: after) →
          ((Track.start limits).run (before ++ [origin.supply])).Retains sup after →
          Shows sup pairs t (((Track.start limits).run (before ++ [origin.supply])).passed sup after)
            ((Track.start limits).run (before ++ origin.supply :: after)).space := by
  have ht := (coherent_of_reachable hs).1
  obtain ⟨pairs, hlists, hsup⟩ := supplying_of_supply ht hmade
  have heffect := effect_run origin.supply s
  rw [hmade] at heffect
  have hshows : ∀ n u, Course sup t n u → Shows sup pairs t n u := fun n u hcourse => by
    obtain ⟨hn, hu⟩ := supplying_course hcourse hsup
    exact shows_of_supplying hn hu
  refine ⟨pairs, hlists, hshows, fun limits before hspace => ⟨?_, ?_⟩⟩
  · rintro hempty r index rfl p hp
    have hkeyed : s.Keyed := hspace ▸ Track.keyed_run (keyed_start limits) hempty
    obtain ⟨hitem, hindex⟩ := contains_of_lists hkeyed hlists hp
    have hno : ∀ kind, (Origin.relation r index).supply ≠ .collect kind := fun kind h => by cases h
    exact ⟨contains_effect heffect ht hno hitem, contains_effect heffect ht hno hindex⟩
  · intro after hregular hretains
    have hafter : ((Track.start limits).run (before ++ [origin.supply])).space = t := by
      rw [Track.run_append, Track.run, List.foldl_cons, List.foldl_nil, Track.step, ← hspace, hmade]
      rfl
    obtain ⟨a, hget, _⟩ := hsup.supplier
    have hops : before ++ origin.supply :: after = before ++ [origin.supply] ++ after :=
      List.append_cons before origin.supply after
    rw [hops] at hregular ⊢
    rw [← hafter] at hget hshows ⊢
    exact hshows _ _ (hregular.course hretains (Heap.contains_iff_get?.mpr ⟨_, hget⟩))

/-- The array is freed, and nothing but the supplier holds its second string. The supplier is a root, so
that the collections keep it. -/
theorem supplier_walks_snapshot_freed_array :
    let array : Ref := ⟨2, 0⟩
    let sup : Ref := ⟨5, 0⟩
    let before : List Operation := [.arrayOfStrings ["a", "b"]]
    let after : List Operation := [.root sup, .collect .minor, .advance sup, .collect .major]
    let ops := before ++ (Origin.array array).supply :: after
    let s := ((Track.start {}).run before).space
    let t := left ((Origin.array array).supply.run s)
    let u := ((Track.start {}).run ops).space
    s.Reachable ∧ (Origin.array array).supply.run s = .ok (.ref sup) t ∧ Track.Regular {} ops ∧
      ((Track.start {}).run (before ++ [(Origin.array array).supply])).Retains sup after ∧
      u.heap.contains array = false ∧
      ∃ pairs, Lists s t pairs (.array array) ∧ Shows sup pairs t 1 u := by
  intro array sup before after ops s t u
  have hs : s.Reachable :=
    .run (.arrayOfStrings ["a", "b"]) (.start {}) (fun a h => by cases h) fun r a =>
      Track.capacity_of_roomy (by decide +kernel)
  have hmade : (Origin.array array).supply.run s = .ok (.ref sup) t := by rfl
  have hlaw : (Track.start {}).Lawful Word.max ops :=
    ⟨by decide, trivial, by decide +kernel, trivial, by decide +kernel, trivial, by decide, trivial,
      by decide +kernel, trivial, by decide, trivial, trivial⟩
  have hfreed : ∀ i, ((Track.start {}).run ops).freed i < 2 ^ 32 := fun i => by
    have hle : ((Track.start {}).run ops).freed i ≤ 0 + ops.length := Track.freed_run_le _ ops i
    exact Nat.lt_of_le_of_lt hle (by decide)
  have hregular : Track.Regular {} ops :=
    ⟨hlaw, ⟨id, id, id, id, id, id, trivial⟩, hfreed,
      Track.capacity_of_prefixes (fun ops => ((Track.start {}).run ops).space) (by decide +kernel)⟩
  have hretains : ((Track.start {}).run (before ++ [(Origin.array array).supply])).Retains sup after :=
    ⟨nofun, fun _ _ => .root (by decide +kernel) (by decide +kernel), nofun,
      fun _ _ => .root (by decide +kernel) (by decide +kernel), trivial⟩
  have hpassed :
      ((Track.start {}).run (before ++ [(Origin.array array).supply])).passed sup after = 1 := by
    decide +kernel
  obtain ⟨pairs, hlists, _, hregularly⟩ := supplier_walks_snapshot hs hmade
  have hshown := (hregularly {} before rfl).2 after hregular hretains
  rw [hpassed] at hshown
  exact ⟨hs, hmade, hregular, hretains, by decide +kernel, pairs, hlists, hshown⟩

/-- An array may hold a handle that resolves to nothing, and then the supplier supplies that handle. And a
supplier that the roots reach is lost all the same, if it has come into the array that holds it by an
append that stopped half-way. -/
theorem supplier_not_walked :
    (let ops : List Operation :=
      [.newString "a", .collect .minor, .arrayOf [some ⟨0, 0⟩], .arraySupplier ⟨0, 1⟩, .root ⟨2, 0⟩]
    let t := (Track.start {}).run ops
    (Track.start {}).Lawful Word.max ops ∧ t.space.heap.Reaches t.space.roots.toList ⟨2, 0⟩ ∧
      t.space.available ⟨2, 0⟩ = .ok true ∧ t.space.suppliedItem ⟨2, 0⟩ = .ok ⟨0, 0⟩ ∧
      t.space.heap.contains ⟨0, 0⟩ = false) ∧
    (let limits : SpaceLimits := { arrays := { maxElements := 2 } }
    let ops : List Operation :=
      [.alloc (.array Track.spacious), .root ⟨0, 0⟩, .tenure ⟨0, 0⟩, .newString "a", .tenure ⟨1, 0⟩,
        .append ⟨0, 0⟩ ⟨1, 0⟩, .arraySupplier ⟨0, 0⟩, .arrayOf [some ⟨3, 0⟩, some ⟨3, 0⟩],
        .appendAll ⟨0, 0⟩ ⟨4, 0⟩]
    let t := (Track.start limits).run ops
    (Track.start limits).Lawful Word.max ops ∧ t.space.heap.Reaches t.space.roots.toList ⟨3, 0⟩ ∧
      t.space.available ⟨3, 0⟩ = .ok true ∧
      (t.step (.collect .minor)).space.heap.contains ⟨3, 0⟩ = false) := by
  refine ⟨⟨?_, ?_, by decide +kernel, by decide +kernel, by decide +kernel⟩,
    ⟨?_, ?_, by decide +kernel, by decide +kernel⟩⟩
  · exact ⟨by decide, trivial, by decide, trivial, by decide +kernel, trivial, by decide +kernel,
      trivial, by decide +kernel, trivial, trivial⟩
  · exact .root (by decide +kernel) (by decide +kernel)
  · exact ⟨by decide, Track.fits_spacious, by decide +kernel, trivial, by decide +kernel, trivial,
      by decide, trivial, by decide +kernel, trivial, by decide +kernel, trivial, by decide +kernel,
      trivial, by decide +kernel, trivial, by decide +kernel, trivial, trivial⟩
  · exact .held (.root (r := ⟨0, 0⟩) (by decide +kernel) (by decide +kernel)) (by decide +kernel)
      (by decide +kernel)

end Space

end Managed
