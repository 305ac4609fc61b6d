import Inspector.ModbusTcp.Client

/-! # The queue of requests

The queue holds the requests that have not been unlinked, in the order in which they were made. A
request is unlinked after it has been replied to or has timed out, and it reports one outcome at
most.
-/

namespace Inspector

namespace ModbusTcp

variable {s s' : State} {l l₁ l₂ : List ℕ} {q i : ℕ}

/-- The request whose callbacks are told of an outcome. -/
def Event.reported : Event → Option ℕ
  | .outcome request _ => some request
  | _ => none

namespace State

def next (s : State) (i : ℕ) : Option ℕ := (s.entries i).next

def number (s : State) (i : ℕ) : ℕ := (s.entries i).number

/-- What is in an entry, apart from its place in the queue. -/
def data (s : State) (i : ℕ) : Entry := { s.entries i with next := none }

/-- The number of outcomes that a request has reported. -/
def reports (s : State) (k : ℕ) : ℕ := (s.history.filterMap Event.reported).count k

/-- The entries in the queue. -/
def requests (s : State) : List ℕ := Linked.collect s.next s.bound s.queue

/-- Events are recorded. -/
def record (s : State) (events : List Event) : State := { s with history := events ++ s.history }

/-- What `unlink_msg` does. -/
def unlinked (s : State) (q : ℕ) (qp : Option ℕ) : State :=
  { (s.takeOut qp (s.next q)).log (.unlinked (s.number q)) with allocated := s.allocated.erase q }

theorem data_congr {α : Type*} (f : Entry → α) (hf : ∀ e next, f { e with next := next } = f e)
    (h : s'.data i = s.data i) : f (s'.entries i) = f (s.entries i) := by
  rw [← hf (s'.entries i) none, ← hf (s.entries i) none]
  exact congrArg f h

theorem sync_congr (h : s'.data i = s.data i) : (s'.entries i).sync = (s.entries i).sync :=
  data_congr Entry.sync (fun _ _ => rfl) h

theorem number_congr (h : s'.data i = s.data i) : s'.number i = s.number i :=
  data_congr Entry.number (fun _ _ => rfl) h

theorem next_setNext (p : ℕ) (v : Option ℕ) :
    (s.setNext p v).next = Function.update s.next p v := by
  ext1 j
  by_cases h : j = p <;> simp [next, setNext, setEntry, h]

theorem data_setNext (p : ℕ) (v : Option ℕ) : (s.setNext p v).data = s.data := by
  ext1 j
  by_cases h : j = p <;> simp [data, setNext, setEntry, h]

theorem data_takeOut (qp v : Option ℕ) : (s.takeOut qp v).data = s.data := by
  cases qp with
  | none => rfl
  | some p => exact data_setNext p v

theorem session_takeOut (qp v : Option ℕ) : (s.takeOut qp v).session = s.session := by
  cases qp <;> rfl

theorem waiting_takeOut (qp v : Option ℕ) : (s.takeOut qp v).waiting = s.waiting := by
  cases qp <;> rfl

theorem made_takeOut (qp v : Option ℕ) : (s.takeOut qp v).made = s.made := by
  cases qp <;> rfl

theorem history_takeOut (qp v : Option ℕ) : (s.takeOut qp v).history = s.history := by
  cases qp <;> rfl

theorem allocated_takeOut (qp v : Option ℕ) : (s.takeOut qp v).allocated = s.allocated := by
  cases qp <;> rfl

end State

/-- The queue holds the given entries in order, which are those allocated, and among them those that
blocking sends wait for. -/
structure Queued (s : State) (l : List ℕ) : Prop where
  chain : Linked.Chain s.next s.queue l
  nodup : l.Nodup
  allocated : l.Perm s.allocated
  waiting : s.waiting ⊆ l
  nodup_waiting : s.waiting.Nodup

/-- The requests in the queue are those that have not been unlinked, in order; those that have been
unlinked had been replied to or had timed out, and no request reports two outcomes. -/
structure Accounted (s : State) (l : List ℕ) : Prop where
  numbers : l.map s.number = (List.range s.made).filter fun k => .unlinked k ∉ s.history
  settled : ∀ k, .unlinked k ∈ s.history → .replied k ∈ s.history ∨ .expired k ∈ s.history
  answered : ∀ i ∈ s.waiting, (s.entries i).sync = false → .replied (s.number i) ∈ s.history
  once : ∀ k, s.reports k ≤ 1
  future : ∀ k, s.made ≤ k → .unlinked k ∉ s.history ∧ s.reports k = 0

/-- Requests that have not been replied to have reported nothing. -/
def Quiet (s : State) (l : List ℕ) : Prop :=
  ∀ i ∈ l, (i ∈ s.waiting → (s.entries i).sync = true) → s.reports (s.number i) = 0

theorem Queued.entry_eq (h : Queued s l) (hi : i ∈ l) : s.entry i = some (s.entries i) :=
  if_pos (h.allocated.subset hi)

theorem Queued.length_le (h : Queued s l) : l.length ≤ s.bound := by
  rw [State.bound, h.allocated.length_eq]
  exact Nat.le_succ _

theorem Queued.requests_eq (h : Queued s l) : s.requests = l := h.chain.collect_eq h.length_le

/-- The loops over the queue end, at the first entry that meets the condition if there is one. -/
theorem Queued.scan_eq (h : Queued s l) (p : ℕ → Entry → Bool) :
    (∀ i ∈ l, p i (s.entries i) = false) ∧ s.scan p = some (l.getLast?, none) ∨
    ∃ l₁ t l₂, l = l₁ ++ t :: l₂ ∧ p t (s.entries t) = true ∧
      (∀ i ∈ l₁, p i (s.entries i) = false) ∧ s.scan p = some (l₁.getLast?, some t) := by
  have hscan := Linked.scan_eq (p := p) h.chain (fun i hi => h.entry_eq hi) h.length_le none
  simp only [Option.or_none] at hscan
  exact hscan

/-- An entry of the queue is found by its address, taken out and freed. -/
theorem Queued.unlinkMsg_eq (h : Queued s (l₁ ++ q :: l₂)) :
    s.unlinkMsg q = some (l₁.getLast?, s.unlinked q l₁.getLast?) := by
  have hmem : q ∈ l₁ ++ q :: l₂ := List.mem_append_right _ List.mem_cons_self
  rcases h.scan_eq fun q' _ => q' = q with ⟨hnone, -⟩ | ⟨k₁, t, k₂, heq, ht, -, hscan⟩
  · exact absurd (hnone q hmem) (by simp)
  · obtain rfl : t = q := of_decide_eq_true ht
    obtain ⟨-, htl, hdisjoint⟩ := List.nodup_append.mp h.nodup
    have hfront : t ∉ l₁ := fun hm => hdisjoint t hm t List.mem_cons_self rfl
    obtain ⟨rfl, -, -⟩ :=
      (List.append_cons_inj_of_notMem hfront (List.nodup_cons.mp htl).1).mp heq
    have hfree :
        t ∈ ((s.takeOut l₁.getLast? (s.next t)).log (.unlinked (s.number t))).allocated := by
      rw [State.log, State.allocated_takeOut]
      exact h.allocated.subset hmem
    rw [State.unlinkMsg, hscan, Option.bind_some]
    simp only [h.entry_eq hmem, Option.bind_some]
    change ((((s.takeOut l₁.getLast? (s.next t)).log (.unlinked (s.number t))).free t).map _) = _
    rw [State.free, if_pos hfree, State.unlinked]
    simp only [State.log, State.allocated_takeOut, Option.map_some]

namespace State

theorem data_unlinked (q : ℕ) (qp : Option ℕ) : (s.unlinked q qp).data = s.data :=
  data_takeOut qp (s.next q)

theorem session_unlinked (q : ℕ) (qp : Option ℕ) : (s.unlinked q qp).session = s.session :=
  session_takeOut qp (s.next q)

theorem waiting_unlinked (q : ℕ) (qp : Option ℕ) : (s.unlinked q qp).waiting = s.waiting :=
  waiting_takeOut qp (s.next q)

theorem made_unlinked (q : ℕ) (qp : Option ℕ) : (s.unlinked q qp).made = s.made :=
  made_takeOut qp (s.next q)

theorem history_unlinked (q : ℕ) (qp : Option ℕ) :
    (s.unlinked q qp).history = .unlinked (s.number q) :: s.history :=
  congrArg (Event.unlinked (s.number q) :: ·) (history_takeOut qp (s.next q))

theorem reports_unlinked (q : ℕ) (qp : Option ℕ) (k : ℕ) :
    (s.unlinked q qp).reports k = s.reports k := by
  rw [reports, history_unlinked]
  rfl

end State

theorem append_subset_middle : l₁ ++ l₂ ⊆ l₁ ++ q :: l₂ :=
  ((List.Sublist.refl l₁).append (List.sublist_cons_self q l₂)).subset

theorem Queued.ne_of_mem (h : Queued s (l₁ ++ q :: l₂)) (hi : i ∈ l₁ ++ l₂) : i ≠ q := by
  rintro rfl
  have hnodup := h.nodup
  rw [List.nodup_middle] at hnodup
  exact (List.nodup_cons.mp hnodup).1 hi

/-- An entry that is alone, or behind another one, is taken out of the queue. -/
theorem Queued.unlinked (h : Queued s (l₁ ++ q :: l₂)) (hhead : l₁ = [] → l₂ = [])
    (hq : q ∉ s.waiting) : Queued (s.unlinked q l₁.getLast?) (l₁ ++ l₂) := by
  have hsub : (l₁ ++ l₂).Sublist (l₁ ++ q :: l₂) :=
    (List.Sublist.refl l₁).append (List.sublist_cons_self q l₂)
  have herase : (l₁ ++ q :: l₂).erase q = l₁ ++ l₂ := by
    have hfront : q ∉ l₁ := fun hm =>
      (List.nodup_append.mp h.nodup).2.2 q hm q List.mem_cons_self rfl
    rw [List.erase_append_right _ hfront, List.erase_cons_head]
  refine ⟨?_, h.nodup.sublist hsub, ?_, ?_, ?_⟩
  · rcases List.eq_nil_or_concat l₁ with rfl | ⟨k, p, rfl⟩
    · obtain rfl := hhead rfl
      exact .nil
    · rw [List.concat_eq_append, List.getLast?_concat, List.append_assoc]
      have hchain := h.chain
      have hnodup := h.nodup
      rw [List.concat_eq_append, List.append_assoc] at hchain hnodup
      change Linked.Chain (s.setNext p (s.next q)).next s.queue _
      rw [State.next_setNext]
      exact hchain.unlink hnodup
  · rw [← herase]
    exact h.allocated.erase q
  · rw [State.waiting_unlinked]
    intro i hi
    rcases List.mem_append.mp (h.waiting hi) with hl | hl
    · exact List.mem_append_left _ hl
    · rcases List.mem_cons.mp hl with rfl | hl
      · exact absurd hi hq
      · exact List.mem_append_right _ hl
  · rw [State.waiting_unlinked]
    exact h.nodup_waiting

theorem Accounted.nodup (h : Accounted s l) : (l.map s.number).Nodup := by
  rw [h.numbers]
  exact List.nodup_range.filter _

theorem Accounted.number_inj (h : Accounted s l) {j : ℕ} (hi : i ∈ l) (hj : j ∈ l)
    (hij : s.number i = s.number j) : i = j :=
  List.inj_on_of_nodup_map h.nodup hi hj hij

theorem Accounted.number_lt (h : Accounted s l) (hi : i ∈ l) : s.number i < s.made := by
  have hmem : s.number i ∈ l.map s.number := List.mem_map_of_mem hi
  rw [h.numbers] at hmem
  exact List.mem_range.mp (List.mem_filter.mp hmem).1

theorem filter_ne_of_nodup {x : ℕ} (h : (l₁ ++ x :: l₂).Nodup) :
    (l₁ ++ x :: l₂).filter (fun y => y ≠ x) = l₁ ++ l₂ := by
  have hfront : x ∉ l₁ := fun hm => (List.nodup_append.mp h).2.2 x hm x List.mem_cons_self rfl
  calc (l₁ ++ x :: l₂).filter (fun y => y ≠ x)
      = (l₁ ++ x :: l₂).filter (· != x) := List.filter_congr fun y _ => by
        rw [Bool.eq_iff_iff, decide_eq_true_iff, bne_iff_ne]
    _ = (l₁ ++ x :: l₂).erase x := (h.erase_eq_filter x).symm
    _ = l₁ ++ l₂ := by rw [List.erase_append_right _ hfront, List.erase_cons_head]

/-- A request that has been replied to or has timed out is unlinked. -/
theorem Accounted.unlinked (h : Accounted s (l₁ ++ q :: l₂)) (qp : Option ℕ)
    (hq : .replied (s.number q) ∈ s.history ∨ .expired (s.number q) ∈ s.history) :
    Accounted (s.unlinked q qp) (l₁ ++ l₂) := by
  have hnumber : (s.unlinked q qp).number = s.number := by
    ext1 j
    exact State.number_congr (congrFun (State.data_unlinked q qp) j)
  have hmade : s.number q < s.made :=
    h.number_lt (List.mem_append_right _ List.mem_cons_self)
  refine ⟨?_, ?_, ?_, ?_, ?_⟩
  · have hnodup := h.nodup
    have hnumbers := h.numbers
    rw [List.map_append, List.map_cons] at hnodup hnumbers
    rw [hnumber, State.made_unlinked, State.history_unlinked, List.map_append,
      ← filter_ne_of_nodup hnodup, hnumbers, List.filter_filter]
    apply List.filter_congr
    intro k _
    simp only [List.mem_cons, not_or, Event.unlinked.injEq, Bool.decide_and]
  · rw [State.history_unlinked]
    intro k hk
    simp only [List.mem_cons, reduceCtorEq, false_or, Event.unlinked.injEq] at hk ⊢
    rcases hk with rfl | hk
    · exact hq
    · exact h.settled k hk
  · rw [State.waiting_unlinked, State.history_unlinked, hnumber]
    intro i hi hsync
    rw [State.sync_congr (congrFun (State.data_unlinked q qp) i)] at hsync
    exact List.mem_cons_of_mem _ (h.answered i hi hsync)
  · intro k
    rw [State.reports_unlinked]
    exact h.once k
  · intro k hk
    rw [State.made_unlinked] at hk
    rw [State.reports_unlinked, State.history_unlinked]
    refine ⟨?_, (h.future k hk).2⟩
    rintro (_ | ⟨_, hmem⟩)
    · exact absurd hmade (Nat.not_lt.mpr hk)
    · exact (h.future _ hk).1 hmem

/-- The invariant of a run. -/
structure Good (s : State) (l : List ℕ) : Prop where
  queued : Queued s l
  accounted : Accounted s l
  quiet : Quiet s l
  sync : ∀ i ∈ l, (s.entries i).sync = true → i ∈ s.waiting

/-- Events that unlink nothing, and outcomes of one request only. -/
structure Concerns (k : ℕ) (events : List Event) : Prop where
  linked : ∀ j, .unlinked j ∉ events
  reported : ∀ j ∈ events.filterMap Event.reported, j = k

theorem Concerns.count_le {k : ℕ} {events : List Event} (h : Concerns k events) :
    (events.filterMap Event.reported).count k = (events.filterMap Event.reported).length :=
  List.count_eq_length.mpr fun j hj => (h.reported j hj).symm

theorem State.reports_record (events : List Event) (k : ℕ) :
    (s.record events).reports k =
      (events.filterMap Event.reported).count k + s.reports k := by
  rw [reports, record, List.filterMap_append, List.count_append]
  rfl

/-- Other requests have reported what they had. -/
theorem Concerns.reports_of_ne {k j : ℕ} {events : List Event} (h : Concerns k events)
    (hj : j ≠ k) : (s.record events).reports j = s.reports j := by
  have hnot : j ∉ events.filterMap Event.reported := fun hm => hj (h.reported j hm)
  rw [State.reports_record, List.count_eq_zero.mpr hnot, Nat.zero_add]

theorem Accounted.record (h : Accounted s l) {k : ℕ} {events : List Event}
    (hevents : Concerns k events) (hk : k < s.made)
    (hcount : s.reports k + (events.filterMap Event.reported).length ≤ 1) :
    Accounted (s.record events) l := by
  have hunlinked : ∀ j, .unlinked j ∈ events ++ s.history ↔ .unlinked j ∈ s.history := by
    intro j
    rw [List.mem_append, or_iff_right (hevents.linked j)]
  refine ⟨?_, ?_, ?_, ?_, ?_⟩
  · simp only [State.record, hunlinked]
    exact h.numbers
  · intro j hj
    rcases h.settled j ((hunlinked j).mp hj) with hr | he
    · exact .inl (List.mem_append_right _ hr)
    · exact .inr (List.mem_append_right _ he)
  · intro i hi hsync
    exact List.mem_append_right _ (h.answered i hi hsync)
  · intro j
    by_cases hj : j = k
    · subst hj
      rw [State.reports_record, hevents.count_le, Nat.add_comm]
      exact hcount
    · rw [hevents.reports_of_ne hj]
      exact h.once j
  · intro j hj
    have hne : j ≠ k := fun he => absurd hk (Nat.not_lt.mpr (he ▸ hj))
    rw [hevents.reports_of_ne hne]
    exact ⟨fun hm => (h.future j hj).1 ((hunlinked j).mp hm), (h.future j hj).2⟩

theorem Queued.record (h : Queued s l) (events : List Event) : Queued (s.record events) l :=
  ⟨h.chain, h.nodup, h.allocated, h.waiting, h.nodup_waiting⟩

/-- A request that is settled by what is recorded, and that no blocking send waits for, is
unlinked. -/
theorem Queued.retire (hqueued : Queued s (l₁ ++ q :: l₂))
    (haccounted : Accounted s (l₁ ++ q :: l₂))
    (hquiet : Quiet s (l₁ ++ l₂))
    (hsync : ∀ i ∈ l₁ ++ l₂, (s.entries i).sync = true → i ∈ s.waiting) (hhead : l₁ = [] → l₂ = [])
    (hq : q ∉ s.waiting) {events : List Event} (hevents : Concerns (s.number q) events)
    (hcount : s.reports (s.number q) + (events.filterMap Event.reported).length ≤ 1)
    (hsettled : .replied (s.number q) ∈ events ++ s.history ∨
      .expired (s.number q) ∈ events ++ s.history) :
    (s.record events).unlinkMsg q =
        some (l₁.getLast?, (s.record events).unlinked q l₁.getLast?) ∧
      Good ((s.record events).unlinked q l₁.getLast?) (l₁ ++ l₂) := by
  have hmem : q ∈ l₁ ++ q :: l₂ := List.mem_append_right _ List.mem_cons_self
  have hrecord := hqueued.record events
  refine ⟨hrecord.unlinkMsg_eq, hrecord.unlinked hhead hq, ?_, ?_, ?_⟩
  · exact (haccounted.record hevents (haccounted.number_lt hmem) hcount).unlinked _ hsettled
  · intro i hi hwaits
    have hdata := congrFun (State.data_unlinked (s := s.record events) q l₁.getLast?) i
    rw [State.waiting_unlinked, State.sync_congr hdata] at hwaits
    have hnumber : s.number i ≠ s.number q := fun he =>
      hqueued.ne_of_mem hi (haccounted.number_inj (append_subset_middle hi) hmem he)
    rw [State.reports_unlinked, State.number_congr hdata]
    exact (hevents.reports_of_ne hnumber).trans (hquiet i hi hwaits)
  · intro i hi hs
    rw [State.waiting_unlinked]
    apply hsync i hi
    rwa [State.sync_congr (congrFun (State.data_unlinked q _) i)] at hs

/-- Only links, numbers, what is waited for and the history matter. -/
theorem Good.congr (h : Good s l) (hnext : s'.next = s.next) (hnumber : s'.number = s.number)
    (hsync : ∀ i, (s'.entries i).sync = (s.entries i).sync) (hqueue : s'.queue = s.queue)
    (hallocated : s'.allocated = s.allocated) (hwaiting : s'.waiting = s.waiting)
    (hmade : s'.made = s.made) (hhistory : s'.history = s.history) : Good s' l := by
  have hreports : s'.reports = s.reports := by
    ext1 k
    rw [State.reports, hhistory]
    rfl
  obtain ⟨hqueued, haccounted, hquiet, hwaits⟩ := h
  refine ⟨⟨?_, hqueued.nodup, ?_, ?_, ?_⟩, ⟨?_, ?_, ?_, ?_, ?_⟩, ?_, ?_⟩
  · rw [hnext, hqueue]
    exact hqueued.chain
  · rw [hallocated]
    exact hqueued.allocated
  · rw [hwaiting]
    exact hqueued.waiting
  · rw [hwaiting]
    exact hqueued.nodup_waiting
  · rw [hnumber, hmade, hhistory]
    exact haccounted.numbers
  · rw [hhistory]
    exact haccounted.settled
  · rw [hwaiting, hhistory, hnumber]
    intro i hi hs
    exact haccounted.answered i hi (hsync i ▸ hs)
  · rw [hreports]
    exact haccounted.once
  · rw [hmade, hhistory, hreports]
    exact haccounted.future
  · intro i hi hs
    rw [hwaiting, hsync] at hs
    rw [hreports, hnumber]
    exact hquiet i hi hs
  · intro i hi hs
    rw [hwaiting]
    exact hwaits i hi (hsync i ▸ hs)

/-- A session may change. -/
theorem Good.setSession (h : Good s l) (idx : Fin nClients) (x : Session) :
    Good (s.setSession idx x) l :=
  h.congr rfl rfl (fun _ => rfl) rfl rfl rfl rfl rfl

end ModbusTcp

end Inspector
