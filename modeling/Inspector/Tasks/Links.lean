import Inspector.Tasks.Layout

/-! # Linking nodes into queues

The functions that link nodes and take them out again end, and move a node from the hand into a
queue or back.
-/

namespace Inspector

namespace Tasks

variable {n : ℕ} {φ δ : Type*} {s s' : State n φ δ} {L : Layout n} {q : Queue} {i : Fin n}

theorem length_lt {a : Fin n} {l : List (Fin n)} (h : (a :: l).Nodup) : l.length < n := by
  have hcard := h.length_le_card
  rwa [List.length_cons, Fintype.card_fin] at hcard

namespace Laid

theorem not_mem_of_hand (h : Laid s L) (hi : i ∈ L.hand) (q : Queue) : i ∉ L.lists q := by
  rintro hq
  have hn := (List.nodup_append.mp h.nodup).2.2
  exact hn i hi i (List.mem_append_left _ (List.mem_flatMap.mpr ⟨q, Layout.mem_queues q, hq⟩)) rfl

/-- A node in hand is linked in somewhere. -/
theorem link (h : Laid s L) (hhand : L.hand = [i]) (hq : ¬ Suspended s.frames q)
    {k m : List (Fin n)} (hl : L.lists q = k ++ m) (s' : State n φ δ) (hr : Relinked s s')
    (hnext : ∀ j ∉ i :: k, s'.next j = s.next j) (hheads : ∀ r ≠ q, s'.head r = s.head r)
    (hc : Linked.Chain s'.next (s'.head q) (k ++ i :: m)) :
    Laid s' ((L.setList q (k ++ i :: m)).setHand []) := by
  apply h.relink hr hq _ hheads hc
  · rw [hhand, hl]
    exact List.perm_middle
  · rintro j hj
    apply hnext
    rw [hhand, hl] at hj
    rintro hmem
    apply hj
    rcases List.mem_cons.mp hmem with rfl | hmem
    · exact List.mem_append_left _ List.mem_cons_self
    · exact List.mem_append_right _ (List.mem_append_left _ hmem)

theorem append (h : Laid s L) (hhand : L.hand = [i]) (hq : ¬ Suspended s.frames q)
    (hi : s.next i = none) :
    ∃ s', s.append q i = some s' ∧ Relinked s s' ∧
      Laid s' ((L.setList q (L.lists q ++ [i])).setHand []) := by
  have hchain := h.chain q hq
  have hmem : i ∉ L.lists q := h.not_mem_of_hand (by rw [hhand]; exact List.mem_singleton_self i) q
  have hnodup := L.nodup_list h.nodup q
  cases hl : L.lists q with
  | nil =>
    rw [hl] at hchain
    have hhead := Linked.chain_nil_iff.mp hchain
    refine ⟨s.setHead q (some i), by rw [State.append, hhead], relinked_setHead q _ s, ?_⟩
    apply h.link hhand hq (k := []) hl _ (relinked_setHead q _ s) (fun j _ => rfl)
      (fun r hr => head_setHead_ne hr _ s)
    rw [head_setHead]
    apply Linked.Chain.cons
    exact Linked.chain_nil_iff.mpr hi
  | cons a l =>
    rw [hl] at hchain hnodup hmem
    obtain ⟨hhead, -⟩ := Linked.chain_cons_iff.mp hchain
    rw [hhead] at hchain
    obtain ⟨l₁, t, heq, hseek⟩ := Linked.seek_last hchain (length_lt hnodup)
    refine ⟨s.setNext t (some i), ?_, relinked_setNext t _ s, ?_⟩
    · rw [State.append, hhead]
      exact congrArg (Option.map _) hseek
    rw [heq] at hchain hnodup hmem hl ⊢
    apply h.link hhand hq (k := l₁ ++ [t]) (m := []) (by rw [hl, List.append_nil]) _
      (relinked_setNext t _ s) _ (fun r _ => by rw [head_setNext])
    · rw [next_setNext, head_setNext, hhead, List.append_assoc]
      have ht : t ∉ l₁ := fun ht =>
        (List.nodup_append.mp hnodup).2.2 t ht t List.mem_cons_self rfl
      apply hchain.replace ht
      · exact Linked.Chain.cons (Linked.chain_nil_iff.mpr hi)
      · intro hti
        rw [← List.mem_singleton.mp hti] at hmem
        exact hmem (List.mem_append_right _ List.mem_cons_self)
    · rintro j hj
      rw [next_setNext]
      apply Function.update_of_ne
      rintro rfl
      exact hj (List.mem_cons_of_mem _ (List.mem_append_right _ List.mem_cons_self))

end Laid

/-- Where `task_add_delayed` puts a task: in front of all tasks when it is not due after the first,
or else in front of the first task that is due after it. -/
def Placed (s : State n φ δ) (i : Fin n) (l₁ l₂ : List (Fin n)) : Prop :=
  match l₁ with
  | [] => ∀ h ∈ l₂.head?, State.diff (s.pool i).time (s.pool h).time ≤ 0
  | h :: l =>
    0 < State.diff (s.pool i).time (s.pool h).time ∧
      (∀ j ∈ l, 0 ≤ State.diff (s.pool i).time (s.pool j).time) ∧
      ∀ j ∈ l₂.head?, State.diff (s.pool i).time (s.pool j).time < 0

namespace Laid

theorem insert (h : Laid s L) (hhand : L.hand = [i]) (hq : ¬ Suspended s.frames .delayed)
    (hi : s.next i = none) :
    ∃ s' l₁ l₂, s.insert i = some s' ∧ Relinked s s' ∧ L.lists .delayed = l₁ ++ l₂ ∧
      Placed s i l₁ l₂ ∧ Laid s' ((L.setList .delayed (l₁ ++ i :: l₂)).setHand []) := by
  have hchain := h.chain _ hq
  have hmem : i ∉ L.lists .delayed :=
    h.not_mem_of_hand (by rw [hhand]; exact List.mem_singleton_self i) _
  have hnodup := L.nodup_list h.nodup .delayed
  cases hl : L.lists .delayed with
  | nil =>
    rw [hl] at hchain
    have hhead := Linked.chain_nil_iff.mp hchain
    refine ⟨s.setHead .delayed (some i), [], [], by rw [State.insert, hhead],
      relinked_setHead _ _ s, rfl, ?_, ?_⟩
    · rintro j ⟨⟩
    · apply h.link hhand hq hl _ (relinked_setHead _ _ s) (fun j _ => rfl)
        (fun r hr => head_setHead_ne hr _ s)
      rw [head_setHead]
      exact Linked.Chain.cons (Linked.chain_nil_iff.mpr hi)
  | cons a l =>
    rw [hl] at hchain hnodup hmem
    obtain ⟨hhead, -⟩ := Linked.chain_cons_iff.mp hchain
    by_cases hfirst : State.diff (s.pool i).time (s.pool a).time ≤ 0
    · let s' := (s.setNext i (some a)).setHead .delayed (some i)
      have hr : Relinked s s' := (relinked_setNext i _ s).trans (relinked_setHead _ _ _)
      refine ⟨s', [], a :: l, ?_, hr, rfl, ?_, ?_⟩
      · rw [State.insert, hhead]
        exact if_pos hfirst
      · rintro j ⟨⟩
        exact hfirst
      · apply h.link hhand hq (k := []) hl s' hr
        · rintro j hj
          change (s.setNext i (some a)).next j = _
          rw [next_setNext]
          exact Function.update_of_ne (fun hji => hj (by rw [hji]; exact List.mem_cons_self)) _ _
        · exact fun r hr' => head_setHead_ne hr' _ _
        · change Linked.Chain (s.setNext i (some a)).next _ _
          rw [head_setHead, next_setNext]
          apply Linked.Chain.cons
          rw [Function.update_self]
          rw [hhead] at hchain
          exact hchain.update hmem
    · rw [hhead] at hchain
      obtain ⟨l₁, t, l₂, heq, hseek, hbefore, hafter⟩ :=
        Linked.seek_eq (fun u => decide (State.diff (s.pool i).time (s.pool u).time < 0)) hchain
          (length_lt hnodup)
      let s' := (s.setNext i (s.next t)).setNext t (some i)
      have hr : Relinked s s' := (relinked_setNext i _ s).trans (relinked_setNext t _ _)
      refine ⟨s', l₁ ++ [t], l₂, ?_, hr, ?_, ?_, ?_⟩
      · rw [State.insert, hhead]
        exact (if_neg hfirst).trans (congrArg (Option.map _) hseek)
      · rw [heq, List.append_assoc]
        rfl
      · have hlater : ∀ j ∈ l₂.head?, State.diff (s.pool i).time (s.pool j).time < 0 :=
          fun j hj => of_decide_eq_true (hafter j hj)
        have hearlier : ∀ j ∈ (l₁ ++ [t]).tail,
            0 ≤ State.diff (s.pool i).time (s.pool j).time :=
          fun j hj => not_lt.mp (of_decide_eq_false (hbefore j hj))
        cases l₁ with
        | nil =>
          obtain ⟨rfl, rfl⟩ := List.cons_eq_cons.mp heq
          exact ⟨not_le.mp hfirst, hearlier, hlater⟩
        | cons b l₁ =>
          obtain ⟨rfl, -⟩ := List.cons_eq_cons.mp heq
          exact ⟨not_le.mp hfirst, hearlier, hlater⟩
      · rw [heq] at hchain hnodup hmem hl
        apply h.link hhand hq (k := l₁ ++ [t]) (m := l₂) (by rw [hl, List.append_assoc]; rfl) s' hr
        · rintro j hj
          obtain ⟨hji, hj⟩ := not_or.mp fun hm => hj (List.mem_cons.mpr hm)
          have hjt : j ≠ t := fun he => hj (by rw [he]; exact List.mem_append_right _ (.head _))
          change ((s.setNext i (s.next t)).setNext t (some i)).next j = _
          rw [next_setNext, next_setNext, Function.update_of_ne hjt, Function.update_of_ne hji]
        · rintro r -
          rfl
        · change Linked.Chain ((s.setNext i (s.next t)).setNext t (some i)).next (s.head .delayed) _
          rw [next_setNext, next_setNext, hhead, List.append_assoc]
          exact hchain.insert hnodup hmem

/-- A node is taken out of a queue. -/
theorem unlink (h : Laid s L) (hhand : L.hand = []) (hq : ¬ Suspended s.frames q)
    {k m : List (Fin n)} (hl : L.lists q = k ++ i :: m) :
    Relinked s (s.unlink q k.getLast? i) ∧
      Laid (s.unlink q k.getLast? i) ((L.setList q (k ++ m)).setHand [i]) := by
  have hchain := h.chain q hq
  have hnodup := L.nodup_list h.nodup q
  rw [hl] at hchain hnodup
  have hperm : ([i] ++ (k ++ m)).Perm (L.hand ++ L.lists q) := by
    rw [hhand, hl]
    change (i :: (k ++ m)).Perm (k ++ i :: m)
    exact List.perm_middle.symm
  rcases List.eq_nil_or_concat k with rfl | ⟨a, p, rfl⟩
  · refine ⟨relinked_setHead q _ s, ?_⟩
    apply h.relink (relinked_setHead q _ s) hq (fun j _ => rfl)
      (fun r hr => head_setHead_ne hr _ s) _ hperm
    change Linked.Chain s.next ((s.setHead q (s.next i)).head q) ([] ++ m)
    rw [head_setHead]
    exact hchain.suffix
  · rw [List.concat_eq_append] at hl hchain hnodup hperm ⊢
    have hunlink : s.unlink q (a ++ [p]).getLast? i = s.setNext p (s.next i) := by
      rw [List.getLast?_append]
      rfl
    rw [hunlink]
    refine ⟨relinked_setNext p _ s, ?_⟩
    rw [List.append_assoc] at hchain hnodup
    apply h.relink (relinked_setNext p _ s) hq _ (fun r _ => by rw [head_setNext]) _ hperm
    · rintro j hj
      rw [next_setNext]
      apply Function.update_of_ne
      rintro rfl
      rw [hl] at hj
      simp at hj
    · rw [next_setNext, head_setNext, List.append_assoc]
      exact hchain.unlink hnodup

/-- The first task that meets a condition is deleted, if there is one. -/
theorem remove (h : Laid s L) (hhand : L.hand = []) (hq : ¬ Suspended s.frames q)
    (p : Fin n → Bool) :
    (∀ j ∈ L.lists q, p j = false) ∧ s.remove q p = some s ∨
    ∃ l₁ i l₂ s', L.lists q = l₁ ++ i :: l₂ ∧ p i = true ∧ (∀ j ∈ l₁, p j = false) ∧
      Relinked s s' ∧ Laid s' ((L.setList q (l₁ ++ l₂)).setHand [i]) ∧
      s.remove q p = some (s'.discard i) := by
  have hlength : (L.lists q).length ≤ n := by
    have hcard := (L.nodup_list h.nodup q).length_le_card
    rwa [Fintype.card_fin] at hcard
  rcases Linked.search_eq p (h.chain q hq) hlength none with
    ⟨hall, hs⟩ | ⟨l₁, i, l₂, hl, hp, hbefore, hs⟩
  · left
    refine ⟨hall, ?_⟩
    rw [State.remove, hs]
    rfl
  · right
    obtain ⟨hr, hlaid⟩ := h.unlink hhand hq hl
    refine ⟨l₁, i, l₂, _, hl, hp, hbefore, hr, hlaid, ?_⟩
    rw [State.remove, hs, Option.or_none]
    rfl

end Laid

end Tasks

end Inspector
