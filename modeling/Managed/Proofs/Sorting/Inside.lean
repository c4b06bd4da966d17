import Managed.Proofs.Sorting.Calls
import Managed.Proofs.Sorting.Plain

/-!
# Sorts stay inside

Whatever a comparator answers, the sorts over plain arrays never use a position outside the run or the
buffer and never run out of rounds. They take the same course as the sorts over vectors, call by call
(`Plain.alike_mergeSort`, `Plain.alike_quickSort`).

Together with what is known of the calls and of the items this says what a sort withstands
(`sorts_withstand_comparators`).
-/

namespace Managed.Sorting

variable {ε σ α β γ : Type} {n : Nat}

namespace Plain

/-! ## Plain arrays and vectors -/

/-- A bench with the items of a vector, a buffer that is long enough and the same memory. -/
structure Sits (long : Nat → Prop) (v : Vector α n) (s : σ) (t : Bench σ α) : Prop where
  items : t.items = v.toArray
  buffer : long t.buffer.size
  memory : t.memory = s

/-- Vectors that are rearranged correspond to what lies on the bench. -/
def beside (ε σ α : Type) (long : Nat → Prop) (n : Nat) :
    Likeness ε (Halt ε) (Vector α n × σ) (Bench σ α) where
  state p t := Sits long p.1 p.2 t
  fault e h := h = .refused e

/-- The same while the items stay as they are. -/
def holding (ε σ : Type) (long : Nat → Prop) (v : Vector α n) :
    Likeness ε (Halt ε) σ (Bench σ α) where
  state s t := Sits long v s t
  fault e h := h = .refused e

section

variable {long : Nat → Prop} {v : Vector α n} {s : σ} {t : Bench σ α}

theorem Sits.size_eq (h : Sits long v s t) : t.items.size = n := by
  rw [h.items, Vector.size_toArray]

theorem Sits.eq_mk (h : Sits long v s t) : t = ⟨v.toArray, t.buffer, s⟩ := by
  rw [← h.items, ← h.memory]

theorem items_bind {next : Vector α n → SortM ε σ α n β} :
    (Sorting.items >>= next) (v, s) = next v (v, s) :=
  rfl

theorem count_bind {next : Nat → PlainM ε σ α β} (h : Sits long v s t) :
    (count >>= next) t = next n t := by
  change next t.items.size t = next n t
  rw [h.size_eq]

theorem fetch_bind_of_some {next : α → PlainM ε σ α β} (h : Sits long v s t) {i : Nat} {a : α}
    (ha : v.toList[i]? = some a) : (fetch i >>= next) t = next a t := by
  have hfetch : (fetch i : PlainM ε σ α α) t = .ok a t := by
    rw [Vector.getElem?_toList] at ha
    unfold fetch
    rw [h.items, Vector.getElem?_toArray, ha]
  exact bind_ok hfetch

theorem fetch_bind {next : α → PlainM ε σ α β} (h : Sits long v s t) {i : Nat} (hi : i < n) :
    (fetch i >>= next) t = next v[i] t := by
  apply fetch_bind_of_some h
  rw [Vector.getElem?_toList, Vector.getElem?_eq_getElem hi]

theorem before_succ_bind {next : Nat → PlainM ε σ α β} {j : Nat} :
    (before (j + 1) >>= next) t = next j t :=
  rfl

theorem before_bind {next : Nat → PlainM ε σ α β} {j : Nat} (hj : 0 < j) :
    (before j >>= next) t = next (j - 1) t := by
  obtain ⟨j, rfl⟩ := Nat.exists_eq_succ_of_ne_zero (Nat.ne_of_gt hj)
  exact before_succ_bind

theorem alike_consult (compare : Comparator ε σ α) (a b : α) :
    (holding ε σ long v).Alike Eq (compare a b) (consult compare a b) := by
  rintro s t ⟨hitems, hbuffer, rfl⟩
  unfold consult
  cases compare a b t.memory with
  | ok o s' => exact ⟨rfl, hitems, hbuffer, rfl⟩
  | error e s' => exact ⟨rfl, hitems, hbuffer, rfl⟩

/-- A computation that leaves the items alone, and what comes after it. -/
theorem results_lift_bind {answer : β → γ → Prop} {δ δ' : Type} {answer' : δ → δ' → Prop}
    {act : EStateM ε σ β} {act' : PlainM ε σ α γ} {next : β → SortM ε σ α n δ}
    {next' : γ → PlainM ε σ α δ'} (hact : (holding ε σ long v).Alike answer act act')
    (hs : Sits long v s t)
    (hnext : ∀ b c s t, answer b c → Sits long v s t →
      (beside ε σ α long n).Results answer' (next b (v, s)) (next' c t)) :
    (beside ε σ α long n).Results answer' ((lift act >>= next) (v, s)) ((act' >>= next') t) := by
  rcases (hact s t hs).cases with ⟨b, c, s', t', hx, hx', hb, ht⟩ | ⟨e, h, s', t', hx, hx', he, ht⟩
  · rw [bind_ok (lift_ok hx), bind_ok hx']
    exact hnext b c s' t' hb ht
  · rw [bind_error (lift_error hx), bind_error hx']
    exact ⟨he, ht⟩

theorem alike_trade (i j : Nat) (hi : i < n) (hj : j < n) :
    (beside ε σ α long n).Alike (fun _ _ => True) (exchange i j hi hj) (trade i j) := by
  rintro ⟨v, s⟩ t ⟨hitems, hbuffer, rfl⟩
  have hinside : i < t.items.size ∧ j < t.items.size := by
    rw [hitems, Vector.size_toArray]
    exact ⟨hi, hj⟩
  unfold trade
  rw [dif_pos hinside]
  refine ⟨trivial, ?_, hbuffer, rfl⟩
  simp only [hitems]
  rfl

theorem paste_toArray (v : Vector α n) (start : Nat) {len : Nat} (h : start + len ≤ n)
    (w : Vector α len) :
    paste v.toArray start (start + len) w.toArray = (splice v start h w).toArray := by
  simp [paste, splice]

theorem size_paste (whole inner : Array α) {start len : Nat} (hwhole : start + len ≤ whole.size)
    (hinner : inner.size = len) : (paste whole start (start + len) inner).size = whole.size := by
  simp only [paste, Array.size_append, Array.size_extract]
  omega

theorem alike_part {answer : β → γ → Prop} {start len stop : Nat} (h : start + len ≤ n)
    (hstop : start + len = stop) {act : SortM ε σ α len β} {act' : PlainM ε σ α γ}
    (hact : (beside ε σ α long len).Alike answer act act') :
    (beside ε σ α long n).Alike answer (within start len h act) (part start stop act') := by
  subst hstop
  rintro ⟨v, s⟩ t ⟨hitems, hbuffer, rfl⟩
  have hinside : start ≤ start + len ∧ start + len ≤ t.items.size := by
    rw [hitems, Vector.size_toArray]
    exact ⟨Nat.le_add_right start len, h⟩
  have hslice : Sits long (slice v start len h) t.memory
      { t with items := t.items.extract start (start + len) } :=
    ⟨by simp [hitems, slice], hbuffer, rfl⟩
  simp only [within, part, if_pos hinside]
  rcases (hact (slice v start len h, t.memory) _ hslice).cases with
    ⟨b, c, ⟨w, s⟩, u, hx, hx', hb, hu⟩ | ⟨e, e', ⟨w, s⟩, u, hx, hx', he, hu⟩
  · rw [hx, hx']
    refine ⟨hb, ?_, hu.buffer, hu.memory⟩
    simp only [hitems, hu.items, paste_toArray v start h]
  · rw [hx, hx']
    refine ⟨he, ?_, hu.buffer, hu.memory⟩
    simp only [hitems, hu.items, paste_toArray v start h]

theorem alike_partOfBoth {answer : β → γ → Prop} {start len : Nat} (h : start + len ≤ n)
    {stop : Array α → Nat} (hstop : ∀ a : Array α, a.size = n → stop a = start + len)
    {act : SortM ε σ α len β} {act' : PlainM ε σ α γ}
    (hact : (beside ε σ α (· = len) len).Alike answer act act') :
    (beside ε σ α (· = n) n).Alike answer (within start len h act) (partOfBoth start stop act') := by
  rintro ⟨v, s⟩ t ⟨hitems, hbuffer, rfl⟩
  have hsize : t.items.size = n := by rw [hitems, Vector.size_toArray]
  have hinside : start ≤ start + len ∧ start + len ≤ t.items.size ∧ start ≤ start + len ∧
      start + len ≤ t.buffer.size := by
    omega
  have hslice : Sits (· = len) (slice v start len h) t.memory
      { t with
        items := t.items.extract start (start + len)
        buffer := t.buffer.extract start (start + len) } := by
    refine ⟨by simp [hitems, slice], ?_, rfl⟩
    rw [Array.size_extract]
    omega
  simp only [within, partOfBoth, hstop t.items hsize, hstop t.buffer hbuffer, if_pos hinside]
  rcases (hact (slice v start len h, t.memory) _ hslice).cases with
    ⟨b, c, ⟨w, s⟩, u, hx, hx', hb, hu⟩ | ⟨e, e', ⟨w, s⟩, u, hx, hx', he, hu⟩
  · rw [hx, hx']
    refine ⟨hb, ?_, (size_paste _ _ hinside.2.2.2 hu.buffer).trans hbuffer, hu.memory⟩
    simp only [hitems, hu.items, paste_toArray v start h]
  · rw [hx, hx']
    refine ⟨he, ?_, (size_paste _ _ hinside.2.2.2 hu.buffer).trans hbuffer, hu.memory⟩
    simp only [hitems, hu.items, paste_toArray v start h]

/-! ## Insertion -/

variable (compare : Comparator ε σ α)

theorem alike_sink (j : Nat) (hj : j < n) :
    (beside ε σ α long n).Alike (fun _ _ => True) (Sorting.sink compare j hj) (sink compare j) := by
  induction j with
  | zero => exact Likeness.alike_pure trivial
  | succ j ih =>
    rintro ⟨v, s⟩ t hs
    rw [Sorting.sink, items_bind, sink, fetch_bind hs (Nat.lt_of_succ_lt hj), fetch_bind hs hj]
    apply results_lift_bind (alike_consult compare _ _) hs
    rintro verdict _ s t rfl hs
    by_cases hgt : verdict = .gt
    · rw [if_pos hgt, if_pos hgt]
      apply Likeness.Results.bind (alike_trade j (j + 1) (Nat.lt_of_succ_lt hj) hj (v, s) t hs)
      intro _ _ p t _ hp
      exact ih (Nat.lt_of_succ_lt hj) p t hp
    · rw [if_neg hgt, if_neg hgt]
      exact ⟨trivial, hs⟩

theorem alike_insertFrom {i left : Nat} (hleft : n - i = left) :
    (beside ε σ α long n).Alike (fun _ _ => True) (insertFrom compare i)
      ((List.range' i left).forM (sink compare)) := by
  induction left generalizing i with
  | zero =>
    unfold insertFrom
    rw [dif_neg (by omega)]
    exact Likeness.alike_pure trivial
  | succ left ih =>
    unfold insertFrom
    rw [dif_pos (by omega : i < n)]
    exact (alike_sink compare i _).bind fun _ _ _ => ih (by omega)

theorem alike_insertionSort :
    (beside ε σ α long n).Alike (fun _ _ => True) (Sorting.insertionSort compare)
      (insertionSort compare) := by
  rintro ⟨v, s⟩ t hs
  rw [insertionSort, count_bind hs]
  exact alike_insertFrom compare rfl (v, s) t hs

/-! ## Merging into the buffer -/

/-- What a merge answers is what the buffer gets after the items that are done. -/
def Merged (v : Vector α n) (done : List α) {len : Nat} :
    EStateM.Result ε σ { m : List α // m.length = len } →
      EStateM.Result (Halt ε) (Bench σ α) Unit → Prop
  | .ok m s, .ok _ t => Sits (· = n) v s t ∧ t.buffer.toList = done ++ m.1
  | .error e s, .error h t => h = .refused e ∧ Sits (· = n) v s t
  | _, _ => False

section

omit compare

variable {done : List α} {len : Nat} {y : EStateM.Result (Halt ε) (Bench σ α) Unit}

theorem Merged.cases {x : EStateM.Result ε σ { m : List α // m.length = len }}
    (h : Merged v done x y) :
    (∃ m s t, x = .ok m s ∧ y = .ok () t ∧ Sits (· = n) v s t ∧ t.buffer.toList = done ++ m.1) ∨
      ∃ e s t, x = .error e s ∧ y = .error (.refused e) t ∧ Sits (· = n) v s t := by
  cases x with
  | ok m s =>
    cases y with
    | ok _ t => exact Or.inl ⟨m, s, t, rfl, rfl, h⟩
    | error e t => exact h.elim
  | error e s =>
    cases y with
    | ok _ t => exact h.elim
    | error e' t =>
      obtain ⟨rfl, hs⟩ := h
      exact Or.inr ⟨e, s, t, rfl, rfl, hs⟩

theorem Merged.ok_cons {a : α} {m : List α} {hm : m.length = len}
    (h : Merged v (done ++ [a]) (.ok ⟨m, hm⟩ s : EStateM.Result ε σ _) y) {len' : Nat}
    (hm' : (a :: m).length = len') : Merged v done (.ok ⟨a :: m, hm'⟩ s) y := by
  cases y with
  | ok _ t => exact ⟨h.1, h.2.trans (List.append_assoc done [a] m)⟩
  | error e t => exact h

theorem Merged.cons {a : α} {len' : Nat} {act : EStateM ε σ { m : List α // m.length = len }}
    {next : { m : List α // m.length = len } → EStateM ε σ { m : List α // m.length = len' }}
    (hnext : ∀ m s, ∃ hm, next m s = .ok ⟨a :: m.1, hm⟩ s)
    (h : Merged v (done ++ [a]) (act s) y) : Merged v done ((act >>= next) s) y := by
  rcases h.cases with ⟨m, s', t, hx, rfl, ht, hbuffer⟩ | ⟨e, s', t, hx, rfl, ht⟩
  · obtain ⟨hm, heq⟩ := hnext m s'
    rw [bind_ok hx, heq]
    exact ⟨ht, hbuffer.trans (List.append_assoc done [a] m.1)⟩
  · rw [bind_error hx]
    exact ⟨rfl, ht⟩

/-- One item goes to the buffer. -/
theorem exists_write {k : Nat} (hs : Sits (· = n) v s t) (hk : k < n)
    (hdone : t.buffer.toList.take k = done) {j : Nat} {a : α} (ha : v.toList[j]? = some a) :
    ∃ u, Sits (· = n) v s u ∧ u.buffer.toList.take (k + 1) = done ++ [a] ∧
      ∀ rest : PlainM ε σ α Unit, (do jot k (← fetch j); rest) t = rest u := by
  have hlt : k < t.buffer.size := Nat.lt_of_lt_of_eq hk hs.buffer.symm
  refine ⟨{ t with buffer := t.buffer.setIfInBounds k a }, ?_, ?_, fun rest => ?_⟩
  · exact ⟨hs.items, (Array.size_setIfInBounds).trans hs.buffer, hs.memory⟩
  · rw [Array.toList_setIfInBounds, List.take_add_one, List.take_set_of_le (Nat.le_refl k), hdone,
      List.getElem?_set_self hlt]
    rfl
  · rw [fetch_bind_of_some hs ha]
    exact bind_ok (if_pos hlt)

theorem drop_take_eq_cons {xs rest : List α} {i stop : Nat} {a : α}
    (h : (xs.take stop).drop i = a :: rest) :
    i < stop ∧ xs[i]? = some a ∧ (xs.take stop).drop (i + 1) = rest := by
  have ha : (xs.take stop)[i]? = some a := by
    rw [← List.head?_drop, h]
    rfl
  have hrest : (xs.take stop).drop (i + 1) = rest := by
    rw [← List.tail_drop, h]
    rfl
  by_cases hi : i < stop
  · rw [List.getElem?_take, if_pos hi] at ha
    exact ⟨hi, ha, hrest⟩
  · rw [List.getElem?_take, if_neg hi] at ha
    cases ha

theorem drop_take_eq_nil {xs : List α} {i stop : Nat} (h : (xs.take stop).drop i = [])
    (hi : i ≤ stop) (hstop : stop ≤ xs.length) : i = stop := by
  rw [List.drop_eq_nil_iff, List.length_take] at h
  omega

end

theorem merge_nil (l : List α) : merge compare l [] = pure ⟨l, rfl⟩ := by
  cases l <;> rw [merge]

/-- A call changes the memory only. -/
theorem merged_consult_bind {a b : α} {done : List α} {len : Nat} (hs : Sits (· = n) v s t)
    {next : Ordering → EStateM ε σ { m : List α // m.length = len }}
    {next' : Ordering → PlainM ε σ α Unit}
    (hnext : ∀ verdict s', Sits (· = n) v s' { t with memory := s' } →
      Merged v done (next verdict s') (next' verdict { t with memory := s' })) :
    Merged v done ((compare a b >>= next) s) ((consult compare a b >>= next') t) := by
  cases hx : compare a b s with
  | ok verdict s' =>
    have hx' : consult compare a b t = .ok verdict { t with memory := s' } := by
      rw [consult, hs.memory, hx]
    rw [bind_ok hx, bind_ok hx']
    exact hnext verdict s' ⟨hs.items, hs.buffer, rfl⟩
  | error e s' =>
    have hx' : consult compare a b t = .error (.refused e) { t with memory := s' } := by
      rw [consult, hs.memory, hx]
    rw [bind_error hx, bind_error hx']
    exact ⟨rfl, hs.items, hs.buffer, rfl⟩

theorem merged_mergeInto {mid : Nat} (hmid : mid ≤ n) {left i j k : Nat} {l r done : List α}
    (hi : i ≤ mid) (hj : j ≤ n) (hl : (v.toList.take mid).drop i = l)
    (hr : (v.toList.take n).drop j = r) (hleft : l.length + r.length = left) (hk : k + left = n)
    (hs : Sits (· = n) v s t) (hdone : t.buffer.toList.take k = done) :
    Merged v done (merge compare l r s) (mergeInto compare mid n (List.range' k left) i j t) := by
  -- by induction on the places left, where `done` is what the buffer has before them
  have hlength : v.toList.length = n := Vector.length_toList
  induction left generalizing i j k l r done s t with
  | zero =>
    obtain ⟨rfl, rfl⟩ : l = [] ∧ r = [] :=
      ⟨List.length_eq_zero_iff.1 (by omega), List.length_eq_zero_iff.1 (by omega)⟩
    rw [merge]
    refine ⟨hs, ?_⟩
    rw [← hdone, List.append_nil, List.take_of_length_le]
    rw [Array.length_toList, hs.buffer]
    omega
  | succ left ih =>
    have hkn : k < n := by omega
    have hstep : k + 1 + left = n := by omega
    rw [List.range'_succ, mergeInto]
    cases l with
    | nil =>
      -- the left half is used up
      rw [takesRight, if_pos (drop_take_eq_nil hl hi (by omega)), pure_bind, if_pos rfl]
      cases r with
      | nil => cases hleft
      | cons b r =>
        obtain ⟨hjn, hb, hr⟩ := drop_take_eq_cons hr
        obtain ⟨u, hu, hdone, hwrite⟩ := exists_write hs hkn hdone hb
        have hrest := ih hi hjn hl hr (Nat.succ.inj hleft) hstep hu hdone
        rw [merge] at hrest ⊢
        rw [hwrite]
        exact hrest.ok_cons _
    | cons a l =>
      obtain ⟨hin, ha, hl'⟩ := drop_take_eq_cons hl
      rw [takesRight, if_neg (Nat.ne_of_lt hin)]
      cases r with
      | nil =>
        -- the right half is used up
        rw [if_pos (drop_take_eq_nil hr hj (by omega)), pure_bind, if_neg Bool.false_ne_true]
        obtain ⟨u, hu, hdone, hwrite⟩ := exists_write hs hkn hdone ha
        have hrest := ih hin hj hl' hr (Nat.succ.inj hleft) hstep hu hdone
        rw [merge_nil] at hrest ⊢
        rw [hwrite]
        exact hrest.ok_cons _
      | cons b r =>
        obtain ⟨hjn, hb, hr'⟩ := drop_take_eq_cons hr
        rw [merge, if_neg (Nat.ne_of_lt hjn), bind_assoc, fetch_bind_of_some hs hb, bind_assoc,
          fetch_bind_of_some hs ha, bind_assoc]
        apply merged_consult_bind compare hs
        intro verdict s' hs'
        rw [pure_bind]
        by_cases hlt : verdict = .lt
        · rw [if_pos hlt, if_pos (decide_eq_true hlt)]
          obtain ⟨u, hu, hdone, hwrite⟩ := exists_write hs' hkn hdone hb
          rw [hwrite]
          exact Merged.cons (fun _ _ => ⟨_, rfl⟩)
            (ih hi hjn hl hr' (Nat.succ.inj hleft) hstep hu hdone)
        · rw [if_neg hlt, if_neg (by rwa [decide_eq_true_eq])]
          obtain ⟨u, hu, hdone, hwrite⟩ := exists_write hs' hkn hdone ha
          rw [hwrite]
          refine Merged.cons (fun _ _ => ⟨_, rfl⟩) (ih hin hj hl' hr ?_ hstep hu hdone)
          rw [List.length_cons, Nat.succ_add] at hleft
          exact Nat.succ.inj hleft

theorem alike_mergeHalves {mid : Nat} (hmid : mid ≤ n) :
    (beside ε σ α (· = n) n).Alike (fun _ _ => True) (mergeHalves compare mid)
      (do mergeInto compare mid n (List.range (← room)) 0 mid; copyBack) := by
  rintro ⟨v, s⟩ t hs
  have hlength : v.toList.length = n := Vector.length_toList
  have hall : (v.toList.take n).drop mid = v.toList.drop mid := by
    rw [List.take_of_length_le (Nat.le_of_eq hlength)]
  have hleft : (v.toList.take mid).length + (v.toList.drop mid).length = n := by
    rw [List.length_take, List.length_drop]
    omega
  have hmerged := merged_mergeInto compare hmid (Nat.zero_le mid) hmid List.drop_zero hall hleft
    (Nat.zero_add n) hs rfl
  have hplain : ((do mergeInto compare mid n (List.range (← room)) 0 mid; copyBack) :
      PlainM ε σ α Unit) t =
      (mergeInto compare mid n (List.range' 0 n) 0 mid >>= fun _ => copyBack) t := by
    rw [← hs.buffer, ← List.range_eq_range']
    rfl
  rw [hplain, mergeHalves, items_bind]
  rcases hmerged.cases with ⟨m, s, u, hx, hx', hu, hbuffer⟩ | ⟨e, s, u, hx, hx', hu⟩
  · have hback : (copyBack : PlainM ε σ α Unit) u = .ok () { u with items := u.buffer } :=
      if_pos (hu.size_eq.trans hu.buffer.symm)
    rw [bind_ok (lift_ok hx), bind_ok hx', hback]
    exact ⟨trivial, Array.toList_inj.1 hbuffer, hu.buffer, hu.memory⟩
  · rw [bind_error (lift_error hx), bind_error hx']
    exact ⟨rfl, hu⟩

theorem alike_mergeSort {rounds : Nat} (h : n < rounds) :
    (beside ε σ α (· = n) n).Alike (fun _ _ => True) (Sorting.mergeSort compare n)
      (mergeSort compare rounds) := by
  induction rounds generalizing n with
  | zero => exact absurd h (Nat.not_lt_zero n)
  | succ rounds ih =>
    rintro ⟨v, s⟩ t hs
    unfold Sorting.mergeSort
    rw [mergeSort, count_bind hs]
    by_cases hn : n ≤ insertionCutoff
    · rw [dif_pos hn, if_pos hn]
      exact alike_insertionSort compare (v, s) t hs
    · rw [dif_neg hn, if_neg hn]
      have hlong : 7 < n := Nat.lt_of_not_le hn
      apply Likeness.Results.bind
        (alike_partOfBoth (by omega : 0 + n / 2 ≤ n) (fun _ _ => (Nat.zero_add _).symm)
          (ih (by omega : n / 2 < rounds)) (v, s) t hs)
      intro _ _ p t _ hp
      apply Likeness.Results.bind
        (alike_partOfBoth (by omega : n / 2 + (n - n / 2) ≤ n) (fun _ ha => by omega)
          (ih (by omega : n - n / 2 < rounds)) p t hp)
      rintro _ _ ⟨v, s⟩ t _ hs
      rw [items_bind, before_bind (by omega : 0 < n / 2), fetch_bind hs (by omega : n / 2 - 1 < n),
        fetch_bind hs (by omega : n / 2 < n)]
      apply results_lift_bind (alike_consult compare _ _) hs
      rintro verdict _ s t rfl hs
      by_cases hgt : verdict = .gt
      · rw [if_pos hgt, if_pos hgt]
        exact alike_mergeHalves compare (Nat.div_le_self n 2) (v, s) t hs
      · rw [if_neg hgt, if_neg hgt]
        exact ⟨trivial, hs⟩

/-! ## Scans -/

omit compare in
theorem results_bind_left {σ' δ : Type} {L : Likeness ε (Halt ε) σ σ'} {answer : β → δ → Prop}
    {answer' : γ → δ → Prop} {act : EStateM ε σ β} {next : β → EStateM ε σ γ}
    {y : EStateM.Result (Halt ε) σ' δ} (hact : L.Results answer (act s) y)
    (hnext : ∀ b s, ∃ c, next b s = .ok c s ∧ ∀ d, answer b d → answer' c d) :
    L.Results answer' ((act >>= next) s) y := by
  rcases hact.cases with ⟨b, d, s', t', hx, rfl, hd, ht⟩ | ⟨e, h, s', t', hx, rfl, he, ht⟩
  · obtain ⟨c, hc, hanswer⟩ := hnext b s'
    rw [bind_ok hx, hc]
    exact ⟨hanswer d hd, ht⟩
  · rw [bind_error hx]
    exact ⟨he, ht⟩

theorem alike_scanUp (pivot : α) {i rounds : Nat} (hi : i + 1 < n) (h : n - (i + 1) ≤ rounds) :
    (holding ε σ long v).Alike (fun k k' => k.1 = k') (Sorting.scanUp compare pivot v (i + 1) hi)
      (scanUp compare pivot (n - 1) rounds i) := by
  induction rounds generalizing i with
  | zero => omega
  | succ rounds ih =>
    intro s t hs
    unfold Sorting.scanUp
    rw [scanUp, fetch_bind hs hi]
    apply Likeness.Results.bind (alike_consult compare _ _ s t hs)
    rintro verdict _ s t rfl hs
    have hstop : verdict ≠ .lt ∨ i + 1 = n - 1 ↔ ¬(verdict = .lt ∧ i + 1 + 1 < n) := by
      rw [not_and_or]
      exact or_congr_right (by omega)
    by_cases hgo : verdict = .lt ∧ i + 1 + 1 < n
    · rw [dif_pos hgo, if_neg (mt hstop.1 (not_not_intro hgo))]
      exact results_bind_left (ih hgo.2 (by omega) s t hs) fun _ _ => ⟨_, rfl, fun _ hk => hk⟩
    · rw [dif_neg hgo, if_pos (hstop.2 hgo)]
      exact ⟨rfl, hs⟩

theorem alike_scanDown (pivot : α) {j above rounds : Nat} (hj : j < n) (habove : j + 1 = above)
    (h : j < rounds) :
    (holding ε σ long v).Alike (fun k k' => k.1 = k') (Sorting.scanDown compare pivot v j hj)
      (scanDown compare pivot rounds above) := by
  subst habove
  induction rounds generalizing j with
  | zero => exact absurd h (Nat.not_lt_zero j)
  | succ rounds ih =>
    intro s t hs
    unfold Sorting.scanDown
    rw [scanDown, before_succ_bind, fetch_bind hs hj]
    apply Likeness.Results.bind (alike_consult compare _ _ s t hs)
    rintro verdict _ s t rfl hs
    have hstop : verdict ≠ .lt ∨ j = 0 ↔ ¬(verdict = .lt ∧ 0 < j) := by
      rw [not_and_or]
      exact or_congr_right (by omega)
    by_cases hgo : verdict = .lt ∧ 0 < j
    · rw [dif_pos hgo, if_neg (mt hstop.1 (not_not_intro hgo))]
      have hrest := ih (by omega : j - 1 < n) (by omega) s t hs
      rw [Nat.sub_add_cancel hgo.2] at hrest
      exact results_bind_left hrest fun _ _ => ⟨_, rfl, fun _ hk => hk⟩
    · rw [dif_neg hgo, if_pos (hstop.2 hgo)]
      exact ⟨rfl, hs⟩

/-! ## Quicksort -/

theorem alike_meet (pivot : α) {i j rounds : Nat} (hij : i < j) (hj : j ≤ n) (hi : i + 1 < n)
    (h : j - i ≤ rounds) :
    (beside ε σ α long n).Alike (fun k k' => k.1 = k')
      (partitionBetween compare pivot i j hij hj hi) (meet compare pivot (n - 1) rounds i j) := by
  induction rounds generalizing i j with
  | zero => omega
  | succ rounds ih =>
    rintro ⟨v, s⟩ t hs
    unfold partitionBetween
    rw [meet, items_bind]
    apply results_lift_bind (alike_scanUp compare pivot hi (by omega)) hs
    rintro ⟨up, hup⟩ _ s t rfl hs
    apply results_lift_bind
      (alike_scanDown compare pivot (by omega : j - 1 < n) (by omega) (by omega)) hs
    rintro ⟨down, hdown⟩ _ s t rfl hs
    dsimp only
    by_cases hmet : up < down
    · rw [dif_pos hmet, if_neg (Nat.not_le.2 hmet)]
      apply Likeness.Results.bind
        (alike_trade up down (by omega : up < n) (by omega : down < n) (v, s) t hs)
      intro _ _ p t _ hp
      exact ih hmet (by omega) (by omega) (by omega) p t hp
    · rw [dif_neg hmet, if_pos (Nat.not_lt.1 hmet)]
      apply Likeness.Results.bind
        (alike_trade 0 down (by omega : 0 < n) (by omega : down < n) (v, s) t hs)
      intro _ _ p t _ hp
      exact ⟨rfl, hp⟩

theorem alike_partition (hn : 1 < n) :
    (beside ε σ α long n).Alike (fun k k' => k.1 = k') (Sorting.partition compare hn)
      (partition compare) := by
  rintro ⟨v, s⟩ t hs
  rw [Sorting.partition, items_bind, partition, count_bind hs, before_bind (by omega : 0 < n),
    fetch_bind hs (by omega : 0 < n), Nat.sub_add_cancel (by omega : 1 ≤ n)]
  exact alike_meet compare v[0] _ _ _ (Nat.sub_le n 0) (v, s) t hs

theorem alike_quickSort {rounds : Nat} (h : n < rounds) :
    (beside ε σ α long n).Alike (fun _ _ => True) (Sorting.quickSort compare n)
      (quickSort compare rounds) := by
  induction rounds generalizing n with
  | zero => exact absurd h (Nat.not_lt_zero n)
  | succ rounds ih =>
    rintro ⟨v, s⟩ t hs
    unfold Sorting.quickSort
    rw [quickSort, count_bind hs]
    by_cases hn : 1 < n
    · rw [dif_pos hn, if_pos hn]
      apply Likeness.Results.bind (alike_partition compare hn (v, s) t hs)
      rintro ⟨k, hk⟩ _ p t rfl hp
      have hlow := alike_part (by omega : 0 + k ≤ n) (Nat.zero_add k) (ih (by omega : k < rounds))
      have hrest : k + 1 + (n - 1 - k) = n := by omega
      have hhigh := alike_part (Nat.le_of_eq hrest) hrest (ih (by omega : n - 1 - k < rounds))
      dsimp only
      rw [(by omega : n - (k + 1) = n - 1 - k)]
      by_cases hless : k < n - 1 - k
      · rw [if_pos hless, if_pos hless]
        exact (hlow.bind fun _ _ _ => hhigh) p t hp
      · rw [if_neg hless, if_neg hless]
        exact (hhigh.bind fun _ _ _ => hlow) p t hp
    · rw [dif_neg hn, if_neg hn]
      exact ⟨trivial, hs⟩

end

end Plain

/-! ## What a sort withstands -/

/-- What a sort over plain arrays comes to if the sort over vectors comes to `result`. -/
def benched (buffer : Array α) :
    EStateM.Result ε (Vector α n × σ) Unit → EStateM.Result (Halt ε) (Bench σ α) Unit
  | .ok _ (v, s) => .ok () ⟨v.toArray, buffer, s⟩
  | .error e (v, s) => .error (.refused e) ⟨v.toArray, buffer, s⟩

theorem exists_benched {long : Nat → Prop} {x : EStateM.Result ε (Vector α n × σ) Unit}
    {y : EStateM.Result (Halt ε) (Bench σ α) Unit}
    (h : (Plain.beside ε σ α long n).Results (fun _ _ => True) x y) :
    ∃ buffer, y = benched buffer x := by
  rcases h.cases with ⟨_, _, ⟨v, s⟩, t, rfl, rfl, _, ht⟩ | ⟨e, _, ⟨v, s⟩, t, rfl, rfl, rfl, ht⟩
  · exact ⟨t.buffer, congrArg (EStateM.Result.ok ()) ht.eq_mk⟩
  · exact ⟨t.buffer, congrArg (EStateM.Result.error (Halt.refused e)) ht.eq_mk⟩

/-- What holds of a sort of `v`, whatever the comparator does. `recorded` is what it comes to with a
record of its calls, and `plain` what it comes to over plain arrays. -/
structure Withstands (v : Vector α n) (result : EStateM.Result ε (Vector α n × σ) Unit)
    (recorded : EStateM.Result ε (Vector α n × σ × List (Call ε α)) Unit)
    (plain : EStateM.Result (Halt ε) (Bench σ α) Unit) : Prop where
  rearranged : (leftIn result).toList.Perm v.toList
  inside : ∃ buffer, plain = benched buffer result
  calls : ∃ calls, recorded = withCalls calls result ∧ calls.length ≤ n * n ∧
    Concludes calls result ∧
    ∀ e, (∃ t, result = .error e t) ↔ ∃ c ∈ calls, c.answer = .error e

/-- With any comparator both sorts come to an end, stay inside the run and the buffer, keep the items and
fail just if a call is refused. That call is then the last one, and its fault is the one they answer. -/
theorem sorts_withstand_comparators (compare : Comparator ε σ α) (v : Vector α n) (s : σ) :
    Withstands v (mergeSort compare n (v, s)) (mergeSort (logged compare) n (v, s, []))
        (Plain.mergeSort compare (n + 1) ⟨v.toArray, v.toArray, s⟩) ∧
      Withstands v (quickSort compare n (v, s)) (quickSort (logged compare) n (v, s, []))
        (Plain.quickSort compare (n + 1) ⟨v.toArray, #[], s⟩) := by
  constructor
  · obtain ⟨calls, hrecord, hcalls, hlength⟩ := exists_calls_mergeSort compare v s
    refine ⟨rearranges_mergeSort compare n v s, ?_, calls, hrecord, hlength, hcalls, hcalls.error_iff⟩
    have hsits : Plain.Sits (· = n) v s ⟨v.toArray, v.toArray, s⟩ := ⟨rfl, v.size_toArray, rfl⟩
    exact exists_benched (Plain.alike_mergeSort compare (Nat.lt_succ_self n) (v, s) _ hsits)
  · obtain ⟨calls, hrecord, hcalls, hlength⟩ := exists_calls_quickSort compare v s
    refine ⟨rearranges_quickSort compare n v s, ?_, calls, hrecord, hlength, hcalls, hcalls.error_iff⟩
    have hsits : Plain.Sits (fun _ => True) v s ⟨v.toArray, #[], s⟩ := ⟨rfl, trivial, rfl⟩
    exact exists_benched (Plain.alike_quickSort compare (Nat.lt_succ_self n) (v, s) _ hsits)

end Managed.Sorting
