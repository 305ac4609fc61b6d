import Inspector.Streams.Connections
import Inspector.Transition.Run
import Mathlib.Data.List.Perm.Basic

/-! # Connecting and disconnecting streams

The connections stay well linked, begin with the base, and contain each stream once, and the active
stream is one of theirs. A stream that is disconnected hands over to the one in front of it, whether
or not it is the active one.
-/

namespace Inspector

namespace Streams

variable {S : Type*} {s s' : State S} {l : List ℕ} {xs : List S} {a b x : S}

namespace State

@[simp] theorem next_setIsUp (i : ℕ) (v : Option (IsUp S)) : (s.setIsUp i v).next = s.next := by
  ext1 j
  by_cases h : j = i <;> simp [next, setIsUp, setNode, h]

@[simp] theorem prev_setIsUp (i : ℕ) (v : Option (IsUp S)) : (s.setIsUp i v).prev = s.prev := by
  ext1 j
  by_cases h : j = i <;> simp [prev, setIsUp, setNode, h]

@[simp] theorem stream_setIsUp (i : ℕ) (v : Option (IsUp S)) (j : ℕ) :
    ((s.setIsUp i v).nodes j).stream = (s.nodes j).stream := by
  by_cases h : j = i <;> simp [setIsUp, setNode, h]

theorem next_setNext (i : ℕ) (v : Option ℕ) :
    (s.setNext i v).next = Function.update s.next i v := by
  ext1 j
  by_cases h : j = i <;> simp [next, setNext, setNode, h]

theorem prev_setNext (i : ℕ) (v : Option ℕ) : (s.setNext i v).prev = s.prev := by
  ext1 j
  by_cases h : j = i <;> simp [prev, setNext, setNode, h]

@[simp] theorem stream_setNext (i : ℕ) (v : Option ℕ) (j : ℕ) :
    ((s.setNext i v).nodes j).stream = (s.nodes j).stream := by
  by_cases h : j = i <;> simp [setNext, setNode, h]

theorem next_setPrev (i : ℕ) (v : Option ℕ) : (s.setPrev i v).next = s.next := by
  ext1 j
  by_cases h : j = i <;> simp [next, setPrev, setNode, h]

theorem prev_setPrev (i : ℕ) (v : Option ℕ) :
    (s.setPrev i v).prev = Function.update s.prev i v := by
  ext1 j
  by_cases h : j = i <;> simp [prev, setPrev, setNode, h]

@[simp] theorem stream_setPrev (i : ℕ) (v : Option ℕ) (j : ℕ) :
    ((s.setPrev i v).nodes j).stream = (s.nodes j).stream := by
  by_cases h : j = i <;> simp [setPrev, setNode, h]

end State

/-- The connections are a well linked list of different streams, and no others are allocated. -/
structure Listed (s : State S) (l : List ℕ) (xs : List S) : Prop where
  double : Linked.Double s.next s.prev 0 l
  streams : l.map (fun i => (s.nodes i).stream) = xs.map some
  nodup : xs.Nodup
  allocated : l.Perm (0 :: s.allocated)

/-- The stream that is active. -/
structure Active (s : State S) (a : S) : Prop where
  hal : s.hal = some a
  activeStream : s.activeStream = some a

theorem Listed.congr (h : Listed s l xs) (hnext : s'.next = s.next) (hprev : s'.prev = s.prev)
    (hstream : ∀ i, (s'.nodes i).stream = (s.nodes i).stream)
    (hallocated : s'.allocated = s.allocated) : Listed s' l xs := by
  refine ⟨?_, ?_, h.nodup, hallocated ▸ h.allocated⟩
  · rw [hnext, hprev]
    exact h.double
  · simp only [hstream]
    exact h.streams

theorem Listed.setIsUp (h : Listed s l xs) (i : ℕ) (v : Option (IsUp S)) :
    Listed (s.setIsUp i v) l xs :=
  h.congr (State.next_setIsUp i v) (State.prev_setIsUp i v) (State.stream_setIsUp i v) rfl

theorem Listed.length_eq (h : Listed s l xs) : l.length = s.bound := h.allocated.length_eq

/-- The first connection is the base. -/
theorem Listed.eq_cons (h : Listed s l xs) : ∃ m, l = 0 :: m ∧ Linked.Chain s.next (s.next 0) m :=
  Linked.chain_some_iff.mp h.double.chain

theorem Listed.base_eq (h : Listed s l xs) : s.base = xs.head? := by
  obtain ⟨m, rfl, -⟩ := h.eq_cons
  have hstreams := congrArg List.head? h.streams
  rw [List.head?_map, List.head?_map, List.head?_cons, Option.map_some] at hstreams
  cases xs with
  | nil => cases hstreams
  | cons y ys => exact Option.some.inj hstreams

theorem Listed.mem_iff (h : Listed s l xs) : x ∈ xs ↔ ∃ i ∈ l, (s.nodes i).stream = some x := by
  have hmem : some x ∈ l.map (fun i => (s.nodes i).stream) ↔ x ∈ xs := by
    rw [h.streams]
    exact List.mem_map_of_injective fun _ _ => Option.some.inj
  rw [← hmem, List.mem_map]

variable {io : S → IoStream} {alloc : Allocator}

theorem State.stream_link (connection last i : ℕ) :
    ((s.link connection last x).nodes i).stream =
      if i = connection then some x else (s.nodes i).stream := by
  unfold State.link
  rw [State.stream_setNext]
  by_cases hi : i = connection <;> simp [State.setNode, hi]

/-- A connection is added behind the last one. -/
theorem Listed.link {t i : ℕ} (h : Listed s (l ++ [t]) xs) (hx : x ∉ xs) (hi : i ∉ l ++ [t]) :
    Listed (s.link i t x) (l ++ [t] ++ [i]) (xs ++ [x]) := by
  have hti : t ≠ i := fun he => hi (he ▸ List.mem_append_right l (List.mem_singleton_self t))
  refine ⟨?_, ?_, ?_, ?_⟩
  · have hnext : (s.link i t x).next =
        Function.update (Function.update s.next i none) t (some i) := by
      unfold State.link
      rw [State.next_setNext]
      congr 1
      ext1 j
      by_cases hj : j = i <;> simp [State.next, State.setNode, hj]
    have hprev : (s.link i t x).prev = Function.update s.prev i (some t) := by
      unfold State.link
      rw [State.prev_setNext]
      ext1 j
      by_cases hj : j = i <;> simp [State.prev, State.setNode, hj]
    rw [hnext, hprev, List.append_assoc]
    exact h.double.append hi
  · rw [List.map_append, List.map_append (f := some), ← h.streams]
    congr 1
    · apply List.map_congr_left
      intro j hj
      rw [State.stream_link, if_neg fun he : j = i => hi (he ▸ hj)]
    · rw [List.map_singleton, List.map_singleton, State.stream_link, if_pos rfl]
  · exact h.nodup.append (List.nodup_singleton x) (List.disjoint_singleton.mpr hx)
  · have hperm : (l ++ [t] ++ [i]).Perm (i :: (l ++ [t])) := List.perm_append_singleton i _
    exact hperm.trans ((h.allocated.cons i).trans (List.Perm.swap 0 i _))

theorem Listed.connectionIsUp (h : Listed s l xs) (v : Option (IsUp S)) (properties : IoStream) :
    ∃ s', s.connectionIsUp io v properties = some s' ∧ Listed s' l xs := by
  unfold State.connectionIsUp
  cases v with
  | some v => exact ⟨s, rfl, h⟩
  | none =>
    rcases Linked.search_eq (s.same io properties) h.double.chain h.length_eq.le none with
      ⟨-, hs⟩ | ⟨l₁, t, l₂, -, -, -, hs⟩
    · rw [hs]
      exact ⟨s, rfl, h⟩
    · rw [hs]
      cases hu : properties.isUsb with
      | true => exact ⟨_, rfl, h.setIsUp t _⟩
      | false => exact ⟨s, rfl, h⟩

theorem Listed.announce (io : S → IoStream) (h : Listed s l xs) (x : S) :
    ∃ s', s.announce io x = some s' ∧ Listed s' l xs := by
  unfold State.announce
  split
  · split_ifs
    · exact h.connectionIsUp _ _
    · exact ⟨s, rfl, h⟩
  · exact h.connectionIsUp _ _
  · exact h.connectionIsUp _ _
  · exact h.connectionIsUp _ _
  · exact ⟨s, rfl, h⟩

variable [DecidableEq S] in
theorem Listed.activate (io : S → IoStream) (h : Listed s l xs) (x : S) :
    Listed (s.activate io x) l xs ∧ Active (s.activate io x) x := by
  have hcopy : Listed (s.copy io x) l xs := h.congr rfl rfl (fun _ => rfl) rfl
  have hrevive : Listed ((s.copy io x).reviveBase x) l xs ∧
      ((s.copy io x).reviveBase x).hal = some x := by
    unfold State.reviveBase
    split_ifs
    · exact ⟨hcopy.setIsUp _ _, rfl⟩
    · exact ⟨hcopy, rfl⟩
  exact ⟨hrevive.1.congr rfl rfl (fun _ => rfl) rfl, hrevive.2, rfl⟩

variable [DecidableEq S]

/-- `add_connection` of a stream other than the base. -/
theorem Listed.addConnection (io : S → IoStream) (alloc : Allocator) (h : Listed s l xs)
    (hb : s.base = some b) (hx : x ≠ b) :
    x ∈ xs ∧ s.addConnection io alloc x = some (none, s) ∨
    x ∉ xs ∧ ∃ i s', s.addConnection io alloc x = some (some i, s') ∧
      Listed s' (l ++ [i]) (xs ++ [x]) := by
  obtain ⟨m, rfl, -⟩ := h.eq_cons
  have hfuel : m.length < s.bound := by
    rw [← h.length_eq]
    exact Nat.lt_succ_self _
  obtain ⟨l₁, t, l₂, hl, hseek, hbefore, hafter⟩ :=
    Linked.seek_eq (fun i => decide ((s.nodes i).stream = some x)) h.double.chain hfuel
  have hnext : s.next t = l₂.head? := by
    have hchain := h.double.chain
    rw [hl] at hchain
    exact hchain.suffix.head_eq
  have hadd : s.addConnection io alloc x =
      some (if (s.next t).isSome then (none, s)
        else
          (some (alloc.malloc (0 :: s.allocated)),
            (s.link (alloc.malloc (0 :: s.allocated)) t x).setIsUp
              (alloc.malloc (0 :: s.allocated)) (some (s.up io x)))) := by
    unfold State.addConnection
    rw [hb]
    exact congrArg (Option.map _) hseek
  cases l₂ with
  | cons u l₂ =>
    left
    refine ⟨?_, ?_⟩
    · rw [h.mem_iff]
      refine ⟨u, ?_, of_decide_eq_true (hafter u rfl)⟩
      rw [hl]
      exact List.mem_append_right _ (List.mem_cons_of_mem t List.mem_cons_self)
    · rw [hadd, hnext]
      rfl
  | nil =>
    right
    have hnot : x ∉ xs := by
      rw [h.mem_iff]
      rintro ⟨i, hi, hstream⟩
      rcases List.mem_cons.mp hi with rfl | hi
      · rw [← State.base, hb] at hstream
        exact hx (Option.some.inj hstream).symm
      · have htail : m = (l₁ ++ [t]).tail := congrArg List.tail hl
        exact of_decide_eq_false (hbefore i (htail ▸ hi)) hstream
    refine ⟨hnot, alloc.malloc (0 :: s.allocated), ?_⟩
    rw [hadd, hnext]
    refine ⟨_, rfl, ?_⟩
    rw [hl]
    have hfresh : alloc.malloc (0 :: s.allocated) ∉ l₁ ++ [t] := by
      rw [← hl]
      exact fun hmem => alloc.fresh _ (h.allocated.mem_iff.mp hmem)
    exact Listed.setIsUp (Listed.link (hl ▸ h) hnot hfresh) _ _

omit [DecidableEq S] in
theorem State.stream_unlink (t p i : ℕ) :
    ((s.unlink t p).nodes i).stream = (s.nodes i).stream := by
  unfold State.unlink
  split
  · rw [State.stream_setPrev, State.stream_setNext]
  · rw [State.stream_setNext]

omit [DecidableEq S] in
/-- A connection is taken out behind another one, and freed. -/
theorem Listed.unlink {k m : List ℕ} {p t : ℕ} {y : S} {ys zs : List S}
    (h : Listed s (k ++ p :: t :: m) (ys ++ y :: x :: zs)) (hlength : k.length = ys.length) :
    Listed { s.unlink t p with allocated := s.allocated.erase t } (k ++ p :: m)
      (ys ++ y :: zs) := by
  have hprev : s.prev t = some p := h.double.prev_eq
  refine ⟨?_, ?_, ?_, ?_⟩
  · have hdouble := h.double.unlink
    change Linked.Double (s.unlink t p).next (s.unlink t p).prev 0 (k ++ p :: m)
    unfold State.unlink
    cases hnext : s.next t with
    | none =>
      rw [hnext] at hdouble
      rw [State.next_setNext, State.prev_setNext]
      exact hdouble
    | some u =>
      rw [hnext] at hdouble
      simp only [State.next_setPrev, State.next_setNext, State.prev_setPrev, State.prev_setNext,
        hprev]
      exact hdouble
  · have hstreams := h.streams
    simp only [State.stream_unlink, List.map_append, List.map_cons] at hstreams ⊢
    obtain ⟨hfront, hrest⟩ := List.append_inj hstreams (by simp [hlength])
    obtain ⟨hp, hrest⟩ := List.cons.inj hrest
    rw [hfront, hp, (List.cons.inj hrest).2]
  · have hsub : (ys ++ y :: zs).Sublist (ys ++ y :: x :: zs) :=
      ((List.sublist_cons_self x zs).cons_cons y).append_left ys
    exact hsub.nodup h.nodup
  · have hperm : (t :: (k ++ p :: m)).Perm (k ++ p :: t :: m) := by
      have hmiddle : (k ++ [p] ++ t :: m).Perm (t :: (k ++ [p] ++ m)) := List.perm_middle
      simpa using hmiddle.symm
    have ht : t ≠ 0 := by
      rintro rfl
      obtain ⟨l, hl, -⟩ := h.eq_cons
      have hnodup := h.double.nodup
      cases k with
      | nil =>
        obtain ⟨rfl, -⟩ := List.cons.inj hl
        exact (List.nodup_cons.mp hnodup).1 List.mem_cons_self
      | cons i k =>
        obtain ⟨rfl, -⟩ := List.cons.inj hl
        apply (List.nodup_cons.mp hnodup).1
        exact List.mem_append_right k (List.mem_cons_of_mem p List.mem_cons_self)
    have hmem : t ∈ s.allocated := by
      have hall := h.allocated.mem_iff.mp (hperm.mem_iff.mp List.mem_cons_self)
      exact (List.mem_cons.mp hall).resolve_left ht
    have herase : (0 :: s.allocated).Perm (t :: 0 :: s.allocated.erase t) :=
      ((List.perm_cons_erase hmem).cons 0).trans (List.Perm.swap t 0 _)
    exact ((hperm.trans h.allocated).trans herase).cons_inv

/-- The loop that takes out the connection of a stream other than the base. -/
theorem Listed.removeConnection (h : Listed s l xs) (hb : s.base = some b) (hx : x ≠ b) :
    x ∉ xs ∧ s.removeConnection x = some (none, s) ∨
    ∃ ys y zs l' s', xs = ys ++ y :: x :: zs ∧ s.removeConnection x = some (some y, s') ∧
      Listed s' l' (ys ++ y :: zs) := by
  obtain ⟨m, rfl, hm⟩ := h.eq_cons
  have hbound : m.length ≤ s.bound := by
    rw [← h.length_eq]
    exact Nat.le_succ _
  rcases Linked.search_eq (fun i => decide ((s.nodes i).stream = some x)) hm hbound none with
    ⟨hall, hs⟩ | ⟨l₁, t, l₂, rfl, ht, -, hs⟩
  · left
    refine ⟨?_, ?_⟩
    · rw [h.mem_iff]
      rintro ⟨i, hi, hstream⟩
      rcases List.mem_cons.mp hi with rfl | hi
      · rw [← State.base, hb] at hstream
        exact hx (Option.some.inj hstream).symm
      · exact of_decide_eq_false (hall i hi) hstream
    · rw [State.removeConnection, hs]
      rfl
  · right
    obtain ⟨k, p, hk⟩ : ∃ k p, 0 :: l₁ = k ++ [p] := by
      rcases List.eq_nil_or_concat (0 :: l₁) with hnil | ⟨k, p, hk⟩
      · cases hnil
      · exact ⟨k, p, hk.trans List.concat_eq_append⟩
    have hl : 0 :: (l₁ ++ t :: l₂) = k ++ p :: t :: l₂ := by
      rw [← List.cons_append, hk, List.append_assoc]
      rfl
    rw [hl] at h
    obtain ⟨ys, rest, rfl, hys, hrest⟩ := List.map_eq_append_iff.mp
      (h.streams.symm.trans List.map_append)
    obtain ⟨y, rest, rfl, hy, hrest⟩ := List.map_eq_cons_iff.mp (hrest.trans List.map_cons)
    obtain ⟨x', zs, rfl, hx', -⟩ := List.map_eq_cons_iff.mp hrest
    obtain rfl : x' = x := Option.some.inj (hx'.trans (of_decide_eq_true ht))
    refine ⟨ys, y, zs, k ++ p :: l₂, _, rfl, ?_, h.unlink ?_⟩
    · rw [State.removeConnection, hs]
      have hprev : s.prev t = some p := h.double.prev_eq
      have hstream : (s.nodes p).stream = some y := hy.symm
      simp only [Option.bind_some, hprev, hstream, Option.map_some]
    · have hlen := congrArg List.length hys
      rwa [List.length_map, List.length_map, eq_comm] at hlen

/-- The stream connected just before another one. -/
def before (x : S) (xs : List S) : Option S := (xs.takeWhile fun y => y ≠ x).getLast?

theorem before_eq {ys zs : List S} {y : S} (h : (ys ++ y :: x :: zs).Nodup) :
    before x (ys ++ y :: x :: zs) = some y := by
  have hsplit : ys ++ y :: x :: zs = (ys ++ [y]) ++ x :: zs := by
    rw [List.append_assoc]
    rfl
  rw [hsplit] at h ⊢
  obtain ⟨-, -, hdisjoint⟩ := List.nodup_append.mp h
  have hfront : ∀ z ∈ ys ++ [y], decide (z ≠ x) = true := fun z hz =>
    decide_eq_true (hdisjoint z hz x List.mem_cons_self)
  rw [before, List.takeWhile_append_of_pos hfront, List.takeWhile_cons_of_neg (by simp),
    List.append_nil, List.getLast?_concat]

/-- What is expected of a call: the streams listed and the active one. A stream is added at the end
and becomes active. When the active one is taken out, the one connected just before it becomes
active. -/
def expected (b : S) (xs : List S) (a : S) : Op S → List S × S
  | .connect x => if x ∈ xs then (xs, a) else (xs ++ [x], x)
  | .disconnect x =>
    if x = b ∨ x ∉ xs then (xs, a)
    else (xs.erase x, if x = a then (before x xs).getD b else a)

/-- A stream that is disconnected is the active one, or just behind it. -/
def Direct (b : S) (xs : List S) (a : S) : Op S → Prop
  | .connect _ => True
  | .disconnect x => x ∈ xs → x ≠ b → x = a ∨ before x xs = some a

/-- The connections are well linked, begin with the base, and list a stream that is active. -/
def Connected (s : State S) (b : S) (xs : List S) (a : S) : Prop :=
  (∃ l, Listed s l xs) ∧ xs.head? = some b ∧ Active s a ∧ a ∈ xs

theorem State.streamSelect_base (io : S → IoStream) (alloc : Allocator)
    (hb : s.base = some x) (add : Bool) :
    ∃ v, s.streamSelect io alloc x add = some (true, s.setIsUp 0 v) := ⟨_, if_pos hb⟩

/-- The base is connected first. -/
theorem connected_base (io : S → IoStream) (alloc : Allocator) (b : S) :
    ∃ s, exec io alloc (some {}) (.connect b) = some s ∧ Connected s b [b] b := by
  let s₀ : State S := ({} : State S).setNode 0 fun n => { n with stream := some b }
  have h₀ : Listed s₀ [0] [b] := by
    refine ⟨⟨?_, List.isChain_singleton 0, List.nodup_singleton 0⟩, ?_, List.nodup_singleton b,
      List.Perm.refl _⟩
    · exact Linked.Chain.cons (Linked.Chain.nil)
    · rfl
  obtain ⟨s₁, hs₁, h₁⟩ := (h₀.setIsUp 0 (some (s₀.up io b))).announce io b
  obtain ⟨h₂, hactive⟩ := h₁.activate io b
  refine ⟨_, ?_, ⟨⟨_, h₂⟩, rfl, hactive, List.mem_singleton_self b⟩⟩
  have hadd : ({} : State S).addConnection io alloc b =
      some (some 0, s₀.setIsUp 0 (some (s₀.up io b))) := rfl
  have hne : ({} : State S).base ≠ some b := nofun
  rw [exec, Option.bind_some, State.streamSelect, if_neg hne, if_pos rfl, hadd]
  simp only [Option.bind_some, hs₁]
  rfl

/-- One call keeps the connections well linked, and does what is expected of it if and only if a
stream that is disconnected is the active one, or just behind it. -/
theorem Connected.step (io : S → IoStream) (alloc : Allocator) (h : Connected s b xs a) (op : Op S) :
    ∃ s' xs' a', exec io alloc (some s) op = some s' ∧ Connected s' b xs' a' ∧
      ((xs', a') = expected b xs a op ↔ Direct b xs a op) := by
  obtain ⟨⟨l, hl⟩, hhead, hactive, hmem⟩ := h
  have hb : s.base = some b := hl.base_eq.trans hhead
  have hbmem : b ∈ xs := List.mem_of_mem_head? hhead
  have hsame : ∀ v, Connected (s.setIsUp 0 v) b xs a := fun v =>
    ⟨⟨l, hl.setIsUp 0 v⟩, hhead, ⟨hactive.hal, hactive.activeStream⟩, hmem⟩
  cases op with
  | connect x =>
    by_cases hx : x = b
    · subst hx
      obtain ⟨v, hv⟩ := State.streamSelect_base io alloc hb true
      refine ⟨s.setIsUp 0 v, xs, a, ?_, hsame v, iff_of_true ?_ trivial⟩
      · rw [exec, Option.bind_some, hv]
        rfl
      · exact (if_pos hbmem).symm
    · have hne : s.base ≠ some x := fun he => hx (Option.some.inj (he.symm.trans hb))
      rcases hl.addConnection io alloc hb hx with
        ⟨hlisted, hs⟩ | ⟨hnot, i, s₁, hs, h₁⟩
      · refine ⟨s, xs, a, ?_, ⟨⟨l, hl⟩, hhead, hactive, hmem⟩, iff_of_true ?_ trivial⟩
        · rw [exec, Option.bind_some, State.streamSelect, if_neg hne, if_pos rfl, hs]
          rfl
        · exact (if_pos hlisted).symm
      · obtain ⟨s₂, hs₂, h₂⟩ := h₁.announce io x
        obtain ⟨h₃, hactive₃⟩ := h₂.activate io x
        refine ⟨_, xs ++ [x], x, ?_, ⟨⟨_, h₃⟩, ?_, hactive₃, List.mem_append_right xs
          (List.mem_singleton_self x)⟩, iff_of_true ?_ trivial⟩
        · rw [exec, Option.bind_some, State.streamSelect, if_neg hne, if_pos rfl, hs]
          simp only [Option.bind_some, hs₂]
          rfl
        · rw [List.head?_append, hhead]
          rfl
        · exact (if_neg hnot).symm
  | disconnect x =>
    by_cases hx : x = b
    · subst hx
      obtain ⟨v, hv⟩ := State.streamSelect_base io alloc hb false
      refine ⟨s.setIsUp 0 v, xs, a, ?_, hsame v, iff_of_true ?_ fun _ hne => absurd rfl hne⟩
      · rw [exec, Option.bind_some, hv]
        rfl
      · exact (if_pos (.inl rfl)).symm
    · have hne : s.base ≠ some x := fun he => hx (Option.some.inj (he.symm.trans hb))
      rcases hl.removeConnection hb hx with ⟨hnot, hs⟩ | ⟨ys, y, zs, l', s₁, rfl, hs, h₁⟩
      · refine ⟨s, xs, a, ?_, ⟨⟨l, hl⟩, hhead, hactive, hmem⟩,
          iff_of_true ?_ fun hm => absurd hm hnot⟩
        · rw [exec, Option.bind_some, State.streamSelect, if_neg hne, if_neg Bool.false_ne_true, hs]
          rfl
        · exact (if_pos (.inr hnot)).symm
      · obtain ⟨s₂, hs₂, h₂⟩ := h₁.announce io y
        obtain ⟨h₃, hactive₃⟩ := h₂.activate io y
        refine ⟨_, ys ++ y :: zs, y, ?_, ⟨⟨_, h₃⟩, ?_, hactive₃, List.mem_append_right ys
          List.mem_cons_self⟩, ?_⟩
        · rw [exec, Option.bind_some, State.streamSelect, if_neg hne, if_neg Bool.false_ne_true, hs]
          simp only [Option.bind_some, hs₂]
          rfl
        · cases ys <;> exact hhead
        · have hxmem : x ∈ ys ++ y :: x :: zs :=
            List.mem_append_right ys (List.mem_cons_of_mem y List.mem_cons_self)
          rw [expected, if_neg (not_or.mpr ⟨hx, not_not_intro hxmem⟩), Linked.erase_eq hl.nodup, Direct,
            before_eq hl.nodup, Prod.mk.injEq, Option.getD_some, Option.some_inj]
          constructor
          · rintro ⟨-, hy⟩ - -
            split_ifs at hy with hxa
            · exact .inl hxa
            · exact .inr hy
          · intro hdirect
            refine ⟨rfl, ?_⟩
            split_ifs with hxa
            · rfl
            · exact (hdirect hxmem hx).resolve_left hxa

/-- In every run after the base has been connected, the connections are well linked, begin with the
base, contain each stream once, and list the active one. A call does what is expected of it if and
only if a stream that it disconnects is the active one, or has been connected just behind it. -/
theorem connections (io : S → IoStream) (alloc : Allocator) (b : S) (ops : List (Op S)) :
    ∃ s xs a, (Op.connect b :: ops).foldl (exec io alloc) (some {}) = some s ∧
      Connected s b xs a ∧
      ∀ op, ∃ s' xs' a', exec io alloc (some s) op = some s' ∧ Connected s' b xs' a' ∧
        ((xs', a') = expected b xs a op ↔ Direct b xs a op) := by
  let I : Option (State S) → Prop := fun o => ∃ s xs a, o = some s ∧ Connected s b xs a
  have hstep : ∀ o op, I o → I (exec io alloc o op) := by
    rintro o op ⟨s, xs, a, rfl, h⟩
    obtain ⟨s', xs', a', hs', h', -⟩ := h.step io alloc op
    exact ⟨s', xs', a', hs', h'⟩
  obtain ⟨s₀, hs₀, h₀⟩ := connected_base io alloc b
  have hinit : I (exec io alloc (some {}) (.connect b)) := ⟨s₀, [b], b, hs₀, h₀⟩
  have hrun : I (ops.foldl (exec io alloc) (exec io alloc (some {}) (.connect b))) :=
    Transition.foldl_of_step hstep hinit
  obtain ⟨s, xs, a, hs, h⟩ := hrun
  exact ⟨s, xs, a, hs, h, fun op => h.step io alloc op⟩

/-- A serial port, a telnet session and a websocket. -/
def clients (i : ℕ) : IoStream :=
  if i = 0 then ⟨.Serial, 0, false, true⟩
  else if i = 1 then ⟨.Telnet, 0, false, true⟩
  else ⟨.WebSocket, 0, false, true⟩

/-- A websocket is active that has been connected after a telnet session. When the session is
disconnected the base becomes active, although the websocket is still listed. -/
theorem not_connections :
    (([.connect 0, .connect 1, .connect 2] : List (Op ℕ)).foldl
      (exec clients firstFit) (some {})).map State.hal = some (some 2) ∧
    (([.connect 0, .connect 1, .connect 2, .disconnect 1] : List (Op ℕ)).foldl
      (exec clients firstFit) (some {})).map
        (fun s => (s.hal, (s.next 0).bind fun i => (s.nodes i).stream)) =
          some (some 0, some 2) := by
  constructor <;> decide

end Streams

end Inspector
