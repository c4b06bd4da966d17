import Mathlib.Algebra.Group.Nat.Defs
import Managed.Proofs.Sorting.Related

/-!
# What a sort asks

A comparator that keeps a record shows which calls a sort makes. The record makes no difference to the
sort. Whatever the comparator answers, a sort of `n` items makes at most `n * n` calls. It succeeds if all
of them are answered. If one is refused the sort fails with the fault of that call, and makes no other
(`exists_calls_mergeSort`, `exists_calls_quickSort`).

The calls are counted by what is left of a number that a computation may make: `Spends` says from which
number it gets by, and what it leaves of it.
-/

namespace Managed.Sorting

variable {ε σ τ α β γ : Type} {n : Nat}

/-! ## Records -/

/-- A call of a comparator, with its answer. -/
structure Call (ε α : Type) where
  left : α
  right : α
  answer : Except ε Ordering

/-- The comparator with a record of its calls, the last one at the end. -/
def logged (compare : Comparator ε σ α) : Comparator ε (σ × List (Call ε α)) α :=
  fun a b (s, calls) =>
    match compare a b s with
    | .ok o s => .ok o (s, calls ++ [⟨a, b, .ok o⟩])
    | .error e s => .error e (s, calls ++ [⟨a, b, .error e⟩])

def Answered (calls : List (Call ε α)) : Prop :=
  ∀ c ∈ calls, ∃ o, c.answer = .ok o

/-- The last call is refused, and it is the only one. -/
def Refused (e : ε) (calls : List (Call ε α)) : Prop :=
  ∃ earlier last, calls = earlier ++ [last] ∧ Answered earlier ∧ last.answer = .error e

/-- The result that follows from the calls: it is a fault if one of them is refused. -/
def Concludes (calls : List (Call ε α)) : EStateM.Result ε τ β → Prop
  | .ok _ _ => Answered calls
  | .error e _ => Refused e calls

theorem Answered.append {calls more : List (Call ε α)} (h : Answered calls) (hmore : Answered more) :
    Answered (calls ++ more) := by
  intro c hc
  rcases List.mem_append.mp hc with hc | hc
  · exact h c hc
  · exact hmore c hc

theorem Answered.concludes_append {calls more : List (Call ε α)} (h : Answered calls)
    {result : EStateM.Result ε τ β} (hmore : Concludes more result) :
    Concludes (calls ++ more) result := by
  cases result with
  | ok b t => exact h.append hmore
  | error e t =>
    obtain ⟨earlier, last, rfl, hearlier, hlast⟩ := hmore
    exact ⟨calls ++ earlier, last, (List.append_assoc ..).symm, h.append hearlier, hlast⟩

theorem Concludes.error_iff {calls : List (Call ε α)} {result : EStateM.Result ε τ β}
    (h : Concludes calls result) (e : ε) :
    (∃ t, result = .error e t) ↔ ∃ c ∈ calls, c.answer = .error e := by
  cases result with
  | ok b t =>
    constructor
    · rintro ⟨_, ⟨⟩⟩
    · rintro ⟨c, hc, he⟩
      obtain ⟨o, ho⟩ := h c hc
      cases ho.symm.trans he
  | error e' t =>
    obtain ⟨earlier, last, rfl, hearlier, hlast⟩ := h
    constructor
    · rintro ⟨_, ⟨⟩⟩
      exact ⟨last, List.mem_append_right earlier List.mem_cons_self, hlast⟩
    · rintro ⟨c, hc, he⟩
      rcases List.mem_append.mp hc with hc | hc
      · obtain ⟨o, ho⟩ := hearlier c hc
        cases ho.symm.trans he
      · cases List.mem_singleton.mp hc
        cases hlast.symm.trans he
        exact ⟨t, rfl⟩

/-! ## Counting calls -/

/-- The state that a computation has left. -/
def stateOf : EStateM.Result ε τ β → τ
  | .ok _ t => t
  | .error _ t => t

/-- What is left of the calls that a computation may make, nothing if it has failed. -/
def leftOver (rest : β → Nat) : EStateM.Result ε τ β → Nat
  | .ok b _ => rest b
  | .error _ _ => 0

/-- A computation that gets by with `k` calls, of which it leaves `rest` by its answer. Its calls are
added to the record, and its result follows from them. -/
def Spends (log : τ → List (Call ε α)) (act : EStateM ε τ β) (k : Nat) (rest : β → Nat) : Prop :=
  ∀ t, ∃ calls, log (stateOf (act t)) = log t ++ calls ∧ Concludes calls (act t) ∧
    calls.length + leftOver rest (act t) ≤ k

section

variable {log : τ → List (Call ε α)} {rest : β → Nat}

theorem spends_of_quiet {act : EStateM ε τ β}
    (h : ∀ t, ∃ b t', act t = .ok b t' ∧ log t' = log t) : Spends log act 0 fun _ => 0 := by
  intro t
  obtain ⟨b, t', hok, hlog⟩ := h t
  rw [hok]
  exact ⟨[], by rw [List.append_nil]; exact hlog, by rintro c ⟨⟩, Nat.le_refl 0⟩

theorem spends_pure {b : β} {k : Nat} (h : rest b ≤ k) :
    Spends log (pure b : EStateM ε τ β) k rest := by
  intro t
  refine ⟨[], (List.append_nil _).symm, ?_, ?_⟩
  · rintro c ⟨⟩
  · change 0 + rest b ≤ k
    omega

/-- One computation after the other. The first leaves `m` calls for the second. -/
theorem Spends.bind {act : EStateM ε τ β} {next : β → EStateM ε τ γ} {j k : Nat} {left m : β → Nat}
    {rest : γ → Nat} (hact : Spends log act j left) (hnext : ∀ b, Spends log (next b) (m b) rest)
    (hj : j ≤ k) (hm : ∀ b, m b + j ≤ k + left b) : Spends log (act >>= next) k rest := by
  intro t
  obtain ⟨calls, hlog, hcalls, hlen⟩ := hact t
  cases hx : act t with
  | ok b t' =>
    rw [hx] at hlog hcalls hlen
    rw [bind_ok hx]
    obtain ⟨more, hlog', hmore, hlen'⟩ := hnext b t'
    refine ⟨calls ++ more, ?_, Answered.concludes_append hcalls hmore, ?_⟩
    · rw [hlog', ← List.append_assoc]
      exact congrArg (· ++ more) hlog
    · have hm := hm b
      change calls.length + left b ≤ j at hlen
      rw [List.length_append]
      omega
  | error e t' =>
    rw [hx] at hlog hcalls hlen
    rw [bind_error hx]
    exact ⟨calls, hlog, hcalls, Nat.le_trans hlen hj⟩

/-- The same if the first leaves nothing of its calls. -/
theorem Spends.seq {act : EStateM ε τ β} {next : β → EStateM ε τ γ} {i j k : Nat} {rest : γ → Nat}
    (hact : Spends log act i fun _ => 0) (hnext : ∀ b, Spends log (next b) j rest) (hk : i + j ≤ k) :
    Spends log (act >>= next) k rest :=
  hact.bind (m := fun _ => j) hnext (by omega) fun _ => by omega

theorem Spends.mono {act : EStateM ε τ β} {j k : Nat} (hact : Spends log act j rest) (hjk : j ≤ k) :
    Spends log act k rest := by
  intro t
  obtain ⟨calls, hlog, hcalls, hlen⟩ := hact t
  exact ⟨calls, hlog, hcalls, Nat.le_trans hlen hjk⟩

end

theorem spends_logged (compare : Comparator ε σ α) (a b : α) :
    Spends Prod.snd (logged compare a b) 1 fun _ => 0 := by
  intro t
  obtain ⟨s, calls⟩ := t
  unfold logged
  dsimp only
  cases compare a b s with
  | ok o s' =>
    refine ⟨[⟨a, b, .ok o⟩], rfl, ?_, Nat.le_refl 1⟩
    intro c hc
    rw [List.mem_singleton.mp hc]
    exact ⟨o, rfl⟩
  | error e s' =>
    refine ⟨[⟨a, b, .error e⟩], rfl, ⟨[], _, rfl, ?_, rfl⟩, Nat.le_refl 1⟩
    rintro c ⟨⟩

/-- The record beside the items. -/
def callsOf (t : Vector α n × σ × List (Call ε α)) : List (Call ε α) :=
  t.2.2

theorem Spends.lift {act : EStateM ε (σ × List (Call ε α)) β} {k : Nat} {rest : β → Nat}
    (hact : Spends Prod.snd act k rest) :
    Spends callsOf (lift act : SortM ε (σ × List (Call ε α)) α n β) k rest := by
  rintro ⟨v, s⟩
  have h := hact s
  simp only [Sorting.lift]
  cases hres : act s with
  | ok b s' =>
    rw [hres] at h
    exact h
  | error e s' =>
    rw [hres] at h
    exact h

theorem Spends.within {start len : Nat} (hle : start + len ≤ n)
    {act : SortM ε (σ × List (Call ε α)) α len β} {k : Nat} {rest : β → Nat}
    (hact : Spends callsOf act k rest) :
    Spends callsOf (within start len hle act : SortM ε (σ × List (Call ε α)) α n β) k rest := by
  rintro ⟨v, s⟩
  have h := hact (slice v start len hle, s)
  simp only [Sorting.within]
  cases hres : act (slice v start len hle, s) with
  | ok b s' =>
    rw [hres] at h
    exact h
  | error e s' =>
    rw [hres] at h
    exact h

theorem spends_items :
    Spends callsOf (items : SortM ε (σ × List (Call ε α)) α n (Vector α n)) 0 fun _ => 0 :=
  spends_of_quiet fun _ => ⟨_, _, rfl, rfl⟩

theorem spends_exchange (i j : Nat) (hi : i < n) (hj : j < n) :
    Spends callsOf (exchange i j hi hj : SortM ε (σ × List (Call ε α)) α n Unit) 0 fun _ => 0 :=
  spends_of_quiet fun _ => ⟨_, _, rfl, rfl⟩

theorem spends_replace (w : Vector α n) :
    Spends callsOf (replace w : SortM ε (σ × List (Call ε α)) α n Unit) 0 fun _ => 0 :=
  spends_of_quiet fun _ => ⟨_, _, rfl, rfl⟩

theorem add_mul_self (a b : Nat) : (a + b) * (a + b) = a * a + b * b + 2 * (a * b) := by
  rw [Nat.add_mul, Nat.mul_add, Nat.mul_add, Nat.mul_comm b a]
  omega

/-! ## Merge sort -/

section

variable (compare : Comparator ε σ α)

theorem spends_sink (j : Nat) (hj : j < n) :
    Spends callsOf (sink (logged compare) j hj) j fun _ => 0 := by
  induction j with
  | zero => exact spends_pure (Nat.le_refl 0)
  | succ j ih =>
    refine spends_items.seq (j := j + 1) (fun v => ?_) (by omega)
    refine (spends_logged compare _ _).lift.seq (j := j) (fun verdict => ?_) (by omega)
    split
    · exact (spends_exchange _ _ _ _).seq (fun _ => ih (by omega)) (by omega)
    · exact spends_pure (Nat.zero_le j)

theorem spends_insertFrom (i : Nat) :
    Spends callsOf (insertFrom (logged compare) i : SortM ε _ α n Unit) ((n - i) * n) fun _ => 0 := by
  induction hk : n - i generalizing i with
  | zero =>
    unfold insertFrom
    rw [dif_neg (by omega)]
    exact spends_pure (Nat.zero_le _)
  | succ k ih =>
    unfold insertFrom
    rw [dif_pos (by omega)]
    refine (spends_sink compare i _).seq (fun _ => ih (i + 1) (by omega)) ?_
    rw [Nat.succ_mul]
    omega

theorem spends_merge (l r : List α) :
    Spends Prod.snd (merge (logged compare) l r) (l.length + r.length) fun _ => 0 := by
  induction l, r using merge.induct with
  | case1 r =>
    rw [merge]
    exact spends_pure (Nat.zero_le _)
  | case2 a l =>
    rw [merge]
    exact spends_pure (Nat.zero_le _)
  | case3 a l b r ihr ihl =>
    rw [merge]
    refine (spends_logged compare b a).seq (j := l.length + r.length + 1) (fun verdict => ?_) ?_
    · split
      · refine ihr.seq (j := 0) (fun m => spends_pure (Nat.le_refl 0)) ?_
        rw [List.length_cons]
        omega
      · refine ihl.seq (j := 0) (fun m => spends_pure (Nat.le_refl 0)) ?_
        rw [List.length_cons]
        omega
    · rw [List.length_cons, List.length_cons]
      omega

theorem spends_mergeHalves (mid : Nat) :
    Spends callsOf (mergeHalves (logged compare) mid : SortM ε _ α n Unit) n fun _ => 0 := by
  refine spends_items.seq (j := n) (fun v => ?_) (by omega)
  refine (spends_merge compare _ _).lift.seq (fun m => spends_replace _) ?_
  rw [List.length_take, List.length_drop, Vector.length_toList]
  omega

theorem spends_mergeSort (n : Nat) :
    Spends callsOf (mergeSort (logged compare) n) (n * n) fun _ => 0 := by
  induction n using Nat.strongRecOn with
  | ind n ih =>
    unfold mergeSort
    split
    · exact (spends_insertFrom compare 1).mono (Nat.mul_le_mul_right n (Nat.sub_le n 1))
    · next hn =>
      have hlong : 7 < n := Nat.lt_of_not_le hn
      have hlow := (ih (n / 2) (by omega)).within (by omega : 0 + n / 2 ≤ n)
      have hhigh := (ih (n - n / 2) (by omega)).within (by omega : n / 2 + (n - n / 2) ≤ n)
      refine hlow.seq (fun _ => hhigh.seq (fun _ => spends_items.seq (j := n + 1) (fun v => ?_)
        (Nat.le_of_eq (Nat.zero_add _))) (Nat.le_refl _)) ?_
      · refine (spends_logged compare _ _).lift.seq (j := n) (fun verdict => ?_) (by omega)
        split
        · exact spends_mergeHalves compare _
        · exact spends_pure (Nat.zero_le n)
      · have hsquare := add_mul_self (n / 2) (n - n / 2)
        have hmixed : 4 * (n - n / 2) ≤ n / 2 * (n - n / 2) := Nat.mul_le_mul_right _ (by omega)
        rw [Nat.add_sub_cancel' (by omega : n / 2 ≤ n)] at hsquare
        omega

/-! ## Quicksort -/

theorem spends_scanUp (pivot : α) (v : Vector α n) (i : Nat) (hi : i < n) :
    Spends Prod.snd (scanUp (logged compare) pivot v i hi) (n - i) fun k => n - 1 - k.1 := by
  induction hk : n - i using Nat.strongRecOn generalizing i with
  | ind k ih =>
    unfold scanUp
    refine (spends_logged compare _ _).seq (j := n - (i + 1)) (fun verdict => ?_) (by omega)
    split
    · refine (ih (n - (i + 1)) (by omega) (i + 1) _ rfl).bind (m := fun k => n - 1 - k.1)
        (fun k => spends_pure (Nat.le_refl _)) (Nat.le_refl _) fun k => by omega
    · exact spends_pure (by simp only; omega)

theorem spends_scanDown (pivot : α) (v : Vector α n) (j : Nat) (hj : j < n) :
    Spends Prod.snd (scanDown (logged compare) pivot v j hj) (j + 1) fun k => k.1 := by
  induction j using Nat.strongRecOn with
  | ind j ih =>
    unfold scanDown
    refine (spends_logged compare _ _).seq (j := j) (fun verdict => ?_) (by omega)
    split
    · next hlt =>
      refine (ih (j - 1) (by omega) _).bind (m := fun k => k.1) (fun k => spends_pure (Nat.le_refl _))
        (by omega) fun k => by omega
    · exact spends_pure (Nat.le_refl j)

theorem spends_partitionBetween (pivot : α) (i j : Nat) (hij : i < j) (hj : j ≤ n) (hi : i + 1 < n) :
    Spends callsOf (partitionBetween (logged compare) pivot i j hij hj hi) (n - 1 - i + j)
      fun _ => 0 := by
  induction hk : j - i using Nat.strongRecOn generalizing i j with
  | ind k ih =>
    unfold partitionBetween
    refine spends_items.seq (j := n - 1 - i + j) (fun v => ?_) (by omega)
    refine (spends_scanUp compare pivot v _ _).lift.bind (m := fun up => n - 1 - up.1 + j)
      (fun up => ?_) (by omega) fun up => by omega
    refine (spends_scanDown compare pivot v _ _).lift.bind (m := fun down => n - 1 - up.1 + down.1)
      (fun down => ?_) (by omega) fun down => by omega
    obtain ⟨up, hup⟩ := up
    obtain ⟨down, hdown⟩ := down
    dsimp only
    split
    · refine (spends_exchange _ _ _ _).seq (fun _ => ?_) (Nat.le_of_eq (Nat.zero_add _))
      exact ih (down - up) (by omega) up down _ _ _ rfl
    · exact (spends_exchange _ _ _ _).seq (fun _ => spends_pure (Nat.zero_le _))
        (Nat.le_of_eq (Nat.zero_add _))

theorem spends_quickSort (n : Nat) :
    Spends callsOf (quickSort (logged compare) n) (n * n) fun _ => 0 := by
  induction n using Nat.strongRecOn with
  | ind n ih =>
    unfold quickSort
    split
    · next hn =>
      have hpart : Spends callsOf (partition (logged compare) hn) (n - 1 + n) fun _ => 0 :=
        spends_items.seq (fun v => spends_partitionBetween compare _ 0 n _ _ _) (by omega)
      refine hpart.seq (j := (n - 1) * (n - 1)) (fun place => ?_) ?_
      · obtain ⟨k, hk⟩ := place
        have hlow := (ih k hk).within (by omega : 0 + k ≤ n)
        have hhigh := (ih (n - 1 - k) (by omega)).within (by omega : k + 1 + (n - 1 - k) ≤ n)
        have hsum : k * k + (n - 1 - k) * (n - 1 - k) ≤ (n - 1) * (n - 1) := by
          have hsquare := add_mul_self k (n - 1 - k)
          rw [Nat.add_sub_cancel' (by omega : k ≤ n - 1)] at hsquare
          omega
        dsimp only
        split
        · exact hlow.seq (fun _ => hhigh) hsum
        · exact hhigh.seq (fun _ => hlow) (by omega)
      · have hsquare := add_mul_self (n - 1) 1
        rw [Nat.sub_add_cancel (by omega : 1 ≤ n)] at hsquare
        omega
    · exact spends_pure (Nat.zero_le _)

end

/-! ## Results and records -/

/-- A result with a record of calls beside the memory. -/
def withCalls (calls : List (Call ε α)) :
    EStateM.Result ε (Vector α n × σ) β → EStateM.Result ε (Vector α n × σ × List (Call ε α)) β
  | .ok b (v, s) => .ok b (v, s, calls)
  | .error e (v, s) => .error e (v, s, calls)

/-- A memory corresponds to itself with any record beside it. -/
def aside (ε σ α : Type) : Likeness ε ε σ (σ × List (Call ε α)) where
  state s p := p.1 = s
  fault := Eq

theorem comparators_logged (compare : Comparator ε σ α) :
    (aside ε σ α).Comparators Eq compare (logged compare) := by
  rintro a b _ _ rfl rfl _ ⟨s, calls⟩ rfl
  unfold logged
  dsimp only
  cases compare a b s with
  | ok o s' => exact ⟨rfl, rfl⟩
  | error e s' => exact ⟨rfl, rfl⟩

/-- The calls of a computation that runs like one without a record. -/
theorem exists_calls {act : SortM ε σ α n Unit} {act' : SortM ε (σ × List (Call ε α)) α n Unit} {k : Nat}
    (halike : ((aside ε σ α).onItems Eq n).Alike (fun _ _ => True) act act')
    (hspends : Spends callsOf act' k fun _ => 0) (v : Vector α n) (s : σ) :
    ∃ calls, act' (v, s, []) = withCalls calls (act (v, s)) ∧ Concludes calls (act (v, s)) ∧
      calls.length ≤ k := by
  obtain ⟨calls, hlog, hcalls, hlen⟩ := hspends (v, s, [])
  refine ⟨calls, ?_⟩
  rcases (halike (v, s) (v, s, []) ⟨fun _ _ => rfl, rfl⟩).cases with
    ⟨_, _, ⟨w, t⟩, ⟨w', t', record⟩, hx, hx', _, hw, ht⟩ |
    ⟨e, e', ⟨w, t⟩, ⟨w', t', record⟩, hx, hx', he, hw, ht⟩
  · obtain rfl : w = w' := Vector.ext hw
    obtain rfl : t' = t := ht
    rw [hx'] at hlog hcalls hlen
    obtain rfl : record = calls := hlog
    rw [hx, hx']
    exact ⟨rfl, hcalls, hlen⟩
  · obtain rfl : w = w' := Vector.ext hw
    obtain rfl : t' = t := ht
    obtain rfl : e = e' := he
    rw [hx'] at hlog hcalls hlen
    obtain rfl : record = calls := hlog
    rw [hx, hx']
    exact ⟨rfl, hcalls, hlen⟩

theorem exists_calls_mergeSort (compare : Comparator ε σ α) (v : Vector α n) (s : σ) :
    ∃ calls, mergeSort (logged compare) n (v, s, []) =
        withCalls calls (mergeSort compare n (v, s)) ∧
      Concludes calls (mergeSort compare n (v, s)) ∧ calls.length ≤ n * n :=
  exists_calls (Likeness.alike_mergeSort (comparators_logged compare) n)
    (spends_mergeSort compare n) v s

theorem exists_calls_quickSort (compare : Comparator ε σ α) (v : Vector α n) (s : σ) :
    ∃ calls, quickSort (logged compare) n (v, s, []) =
        withCalls calls (quickSort compare n (v, s)) ∧
      Concludes calls (quickSort compare n (v, s)) ∧ calls.length ≤ n * n :=
  exists_calls (Likeness.alike_quickSort (comparators_logged compare) n)
    (spends_quickSort compare n) v s

end Managed.Sorting
