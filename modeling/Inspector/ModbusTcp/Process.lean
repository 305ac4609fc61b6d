import Inspector.ModbusTcp.Queue

/-! # Processing the queue

`modbus_process` transmits the first request that it can and unlinks those in front of it that have
timed out. It keeps the queue as long as nothing that it unlinks is waited for or in front of
others.
-/

namespace Inspector

namespace ModbusTcp

variable {s s' : State} {l l₁ l₂ : List ℕ} {q i : ℕ}

/-- An entry is transmitted. -/
theorem Good.transmit (h : Good s l) (hi : q ∈ l) (idx : Fin nClients) (ticks : UInt32) :
    Good (s.transmit idx ticks q (s.entries q)) l := by
  have hevents : Concerns (s.number q)
      [.transmitted (s.number q) (s.entries q).adu (s.entries q).msgLength] :=
    ⟨by simp, by simp [Event.reported]⟩
  have hrecord : Good (s.record [.transmitted (s.number q) (s.entries q).adu
      (s.entries q).msgLength]) l := by
    refine ⟨h.queued.record _, ?_, h.quiet, h.sync⟩
    exact h.accounted.record hevents (h.accounted.number_lt hi) (h.accounted.once _)
  refine hrecord.congr ?_ ?_ ?_ rfl rfl rfl rfl rfl
  · ext1 j
    by_cases hj : j = q <;>
      simp [State.next, State.transmit, State.log, State.setSession, State.setEntry, State.record,
        hj]
  · ext1 j
    by_cases hj : j = q <;>
      simp [State.number, State.transmit, State.log, State.setSession, State.setEntry, State.record,
        hj]
  · intro j
    by_cases hj : j = q <;>
      simp [State.transmit, State.log, State.setSession, State.setEntry, State.record, hj]

/-- The entry is not transmitted yet, is for the unit, and TCP takes it. -/
def Entry.goes (e : Entry) (id : UInt8) (ok : Bool) : Bool :=
  e.adu.pdu.uid = id ∧ e.timeout = 0 ∧ ok = true

/-- The entry has been transmitted to the unit, and no reply has come for some time. -/
def Entry.expires (e : Entry) (id : UInt8) (ticks : UInt32) : Bool :=
  e.adu.pdu.uid = id ∧ e.timeout ≠ 0 ∧ 50 ≤ ticks - e.timeout

def State.goes (s : State) (id : UInt8) (env : Env) (i : ℕ) : Bool :=
  (s.entries i).goes id (env.write i)

def State.expires (s : State) (id : UInt8) (env : Env) (i : ℕ) : Bool :=
  (s.entries i).expires id env.ticks

/-- What the loop of `modbus_process` does not change, and the entry that it transmits. -/
structure Processed (s s' : State) (t : Option ℕ) (ticks : UInt32) : Prop where
  waiting : s'.waiting = s.waiting
  sync : ∀ i, (s'.entries i).sync = (s.entries i).sync
  timeout : ∀ i, (s'.entries i).timeout = if t = some i then ticks else (s.entries i).timeout

theorem Processed.refl (s : State) (ticks : UInt32) : Processed s s none ticks :=
  ⟨rfl, fun _ => rfl, fun _ => rfl⟩

theorem Processed.of_data {s₁ : State} {t : Option ℕ} {ticks : UInt32} (hdata : s₁.data = s.data)
    (hwaiting : s₁.waiting = s.waiting) (h : Processed s₁ s' t ticks) :
    Processed s s' t ticks := by
  refine ⟨h.waiting.trans hwaiting, fun i => ?_, fun i => ?_⟩
  · exact (h.sync i).trans (State.sync_congr (congrFun hdata i))
  · rw [h.timeout, State.data_congr Entry.timeout (fun _ _ => rfl) (congrFun hdata i)]

theorem processed_transmit (idx : Fin nClients) (ticks : UInt32) (q : ℕ) :
    Processed s (s.transmit idx ticks q (s.entries q)) (some q) ticks := by
  refine ⟨rfl, fun i => ?_, fun i => ?_⟩
  · by_cases hi : i = q <;> simp [State.transmit, State.log, State.setSession, State.setEntry, hi]
  · by_cases hi : i = q
    · simp [State.transmit, State.log, State.setSession, State.setEntry, hi]
    · simp [State.transmit, State.log, State.setSession, State.setEntry, hi, Ne.symm hi]

/-- What is recorded when an entry expires. -/
theorem State.expire_eq (s : State) (e : Entry) :
    ∃ events, s.expire e = s.record events ∧ Concerns e.number events ∧
      (events.filterMap Event.reported).length ≤ 1 ∧ .expired e.number ∈ events := by
  rw [expire]
  split_ifs
  · refine ⟨[.expired e.number, .outcome e.number (.exception 0 e.context)], rfl, ⟨?_, ?_⟩,
      Nat.le_refl 1, List.mem_cons_self⟩
    · simp
    · simp [Event.reported]
  · refine ⟨[.expired e.number], rfl, ⟨?_, ?_⟩, Nat.zero_le 1, List.mem_cons_self⟩
    · simp
    · simp [Event.reported]

theorem State.goes_congr {s₁ : State} (h : s₁.data = s.data) : s₁.goes = s.goes := by
  ext1 id
  ext1 env
  ext1 i
  exact data_congr (fun e => e.goes id (env.write i)) (fun _ _ => rfl) (congrFun h i)

theorem State.expires_congr {s₁ : State} (h : s₁.data = s.data) : s₁.expires = s.expires := by
  ext1 id
  ext1 env
  ext1 i
  exact data_congr (fun e => e.expires id env.ticks) (fun _ _ => rfl) (congrFun h i)

theorem Good.next_eq (h : Good s (l₁ ++ q :: l₂)) : s.next q = l₂.head? :=
  h.queued.chain.suffix.head_eq

/-- No blocking send waits for an entry, and it is not in front of others. -/
def Removable (s : State) (l : List ℕ) (i : ℕ) : Prop :=
  i ∉ s.waiting ∧ (l.head? = some i → l = [i])

theorem Removable.tail_eq_nil (h : Removable s (l₁ ++ q :: l₂) q) (hl : l₁ = []) : l₂ = [] := by
  subst hl
  exact (List.cons_eq_cons.mp (h.2 rfl)).2

/-- What is not in front stays so when something behind it is taken out. -/
theorem Removable.unlinked {p : ℕ} (h : Removable s (l₁ ++ p :: q :: l₂) i)
    (hwaiting : s'.waiting = s.waiting) : Removable s' (l₁ ++ p :: l₂) i := by
  refine ⟨hwaiting ▸ h.1, fun hhead => ?_⟩
  have hlong : l₁ ++ p :: q :: l₂ = [i] := by
    apply h.2
    cases l₁ with
    | nil => exact hhead
    | cons a l₁ => exact hhead
  have hlength := congrArg List.length hlong
  rw [List.length_append, List.length_cons, List.length_cons, List.length_singleton] at hlength
  omega

/-- A request that is settled by what is recorded is unlinked if it may be. -/
theorem Good.retire (h : Good s (l₁ ++ q :: l₂)) (hq : Removable s (l₁ ++ q :: l₂) q)
    {events : List Event} (hevents : Concerns (s.number q) events)
    (hcount : (events.filterMap Event.reported).length ≤ 1)
    (hsettled : .replied (s.number q) ∈ events ∨ .expired (s.number q) ∈ events) :
    (s.record events).unlinkMsg q =
        some (l₁.getLast?, (s.record events).unlinked q l₁.getLast?) ∧
      Good ((s.record events).unlinked q l₁.getLast?) (l₁ ++ l₂) := by
  have hmem : q ∈ l₁ ++ q :: l₂ := List.mem_append_right _ List.mem_cons_self
  have hzero : s.reports (s.number q) = 0 := h.quiet q hmem fun hw => absurd hw hq.1
  apply h.queued.retire h.accounted (fun i hi => h.quiet i (append_subset_middle hi))
    (fun i hi => h.sync i (append_subset_middle hi)) hq.tail_eq_nil hq.1 hevents
  · rw [hzero, Nat.zero_add]
    exact hcount
  · exact hsettled.imp (List.mem_append_left _) (List.mem_append_left _)

/-- An entry that has expired is told so and unlinked. -/
theorem Good.expire (h : Good s (l₁ ++ q :: l₂)) (hq : Removable s (l₁ ++ q :: l₂) q) :
    ∃ s', (s.expire (s.entries q)).unlinkMsg q = some (l₁.getLast?, s') ∧ Good s' (l₁ ++ l₂) ∧
      s'.data = s.data ∧ s'.session = s.session ∧ s'.waiting = s.waiting := by
  obtain ⟨events, heq, hevents, hcount, hexpired⟩ := s.expire_eq (s.entries q)
  obtain ⟨hunlink, hgood⟩ := h.retire hq hevents hcount (.inr hexpired)
  refine ⟨_, ?_, hgood, State.data_unlinked q _, State.session_unlinked q _,
    State.waiting_unlinked q _⟩
  rw [heq]
  exact hunlink

variable {idx : Fin nClients} {env : Env} {id : UInt8}

/-- One turn of the loop of `modbus_process`. -/
theorem Good.processLoop_cons {done rest : List ℕ} (h : Good s (done ++ q :: rest))
    (hid : (s.session idx).id = some id) (fuel : ℕ) :
    State.processLoop idx env (fuel + 1) (some q) s =
      if s.goes id env q then some (s.transmit idx env.ticks q (s.entries q))
      else if s.expires id env q then
        ((s.expire (s.entries q)).unlinkMsg q).bind fun r =>
          (r.2.follow r.1).bind fun next => State.processLoop idx env fuel next r.2
      else State.processLoop idx env fuel rest.head? s := by
  have hmem : q ∈ done ++ q :: rest := List.mem_append_right _ List.mem_cons_self
  have hnext : (s.entries q).next = rest.head? := h.next_eq
  rw [State.processLoop, h.queued.entry_eq hmem, Option.bind_some, hid, Option.bind_some, hnext]
  by_cases huid : id = (s.entries q).adu.pdu.uid
  · by_cases htimeout : (s.entries q).timeout = 0
    · simp [State.goes, State.expires, Entry.goes, Entry.expires, huid, htimeout]
    · simp [State.goes, State.expires, Entry.goes, Entry.expires, huid, htimeout]
  · simp [State.goes, State.expires, Entry.goes, Entry.expires, huid, Ne.symm huid]

/-- The loop of `modbus_process` transmits the first entry that it can, and unlinks those in front
of it that have expired. -/
theorem Good.processLoop {done rest : List ℕ} (h : Good s (done ++ rest))
    (hid : (s.session idx).id = some id) {fuel : ℕ} (hfuel : rest.length ≤ fuel)
    (hexpires : ∀ i ∈ rest.takeWhile fun i => !s.goes id env i, s.expires id env i = true →
      Removable s (done ++ rest) i) :
    ∃ s' l', State.processLoop idx env fuel rest.head? s = some s' ∧ Good s' l' ∧
      Processed s s' (rest.find? fun i => s.goes id env i) env.ticks := by
  induction rest generalizing s done fuel with
  | nil =>
    refine ⟨s, done ++ [], ?_, h, .refl s env.ticks⟩
    cases fuel <;> rfl
  | cons q rest ih =>
    obtain ⟨fuel, rfl⟩ : ∃ k, fuel = k + 1 :=
      ⟨fuel - 1, by rw [List.length_cons] at hfuel; omega⟩
    have hfuel' : rest.length ≤ fuel := Nat.le_of_succ_le_succ hfuel
    have hassoc : done ++ q :: rest = (done ++ [q]) ++ rest := by
      rw [List.append_assoc]
      rfl
    rw [List.head?_cons, h.processLoop_cons hid]
    cases hgoes : s.goes id env q with
    | true =>
      rw [if_pos rfl, List.find?_cons_of_pos hgoes]
      exact ⟨_, _, rfl, h.transmit (List.mem_append_right _ List.mem_cons_self) idx env.ticks,
        processed_transmit idx env.ticks q⟩
    | false =>
      have hnot : ¬s.goes id env q = true := by
        rw [hgoes]
        exact Bool.false_ne_true
      rw [if_neg Bool.false_ne_true, List.find?_cons_of_neg hnot]
      have hreached : ∀ i ∈ q :: rest.takeWhile (fun i => !s.goes id env i),
          s.expires id env i = true → Removable s (done ++ q :: rest) i := by
        rwa [List.takeWhile_cons_of_pos (by rw [hgoes]; rfl)] at hexpires
      cases hexp : s.expires id env q with
      | false =>
        rw [if_neg Bool.false_ne_true]
        rw [hassoc] at h hreached
        exact ih h hid hfuel' fun i hi => hreached i (List.mem_cons_of_mem q hi)
      | true =>
        rw [if_pos rfl]
        obtain ⟨s₁, hunlink, hgood, hdata, hsession, hwaiting⟩ :=
          h.expire (hreached q List.mem_cons_self hexp)
        rw [hunlink, Option.bind_some]
        rcases List.eq_nil_or_concat done with rfl | ⟨k, p, rfl⟩
        · -- the loop ends when the first entry has been unlinked
          obtain rfl := (hreached q List.mem_cons_self hexp).tail_eq_nil rfl
          refine ⟨s₁, [], ?_, hgood, (Processed.refl s₁ env.ticks).of_data hdata hwaiting⟩
          cases fuel <;> rfl
        · rw [List.concat_eq_append] at *
          rw [List.getLast?_concat]
          have hp : p ∈ (k ++ [p]) ++ rest :=
            List.mem_append_left _ (List.mem_append_right _ (List.mem_singleton_self p))
          have hnext : (s₁.entries p).next = rest.head? := by
            rw [List.append_assoc] at hgood
            exact hgood.next_eq
          have hid₁ : (s₁.session idx).id = some id := by
            rw [hsession]
            exact hid
          obtain ⟨s', l', hloop, hgood', hprocessed⟩ := ih hgood hid₁ hfuel' (by
            rw [State.goes_congr hdata, State.expires_congr hdata]
            intro i hi hiexp
            have hi' := hreached i (List.mem_cons_of_mem q hi) hiexp
            rw [List.append_assoc] at hi' ⊢
            exact hi'.unlinked hwaiting)
          rw [State.goes_congr hdata] at hprocessed
          refine ⟨s', l', ?_, hgood', hprocessed.of_data hdata hwaiting⟩
          rw [State.follow, hgood.queued.entry_eq hp, Option.map_some, Option.bind_some, hnext]
          exact hloop

namespace State

variable (s)

/-- The entries that `modbus_process` finds to have expired. -/
def expiring (idx : Fin nClients) (env : Env) : List ℕ :=
  if (s.session idx).txBusy then []
  else
    (s.session idx).id.elim [] fun id =>
      (s.requests.takeWhile fun i => !s.goes id env i).filter fun i => s.expires id env i

/-- The entry that `modbus_process` transmits. -/
def first (idx : Fin nClients) (env : Env) : Option ℕ :=
  if (s.session idx).txBusy then none
  else (s.session idx).id.bind fun id => s.requests.find? fun i => s.goes id env i

/-- `modbus_process` finds the settings of the session, and what it unlinks is neither waited for
nor in front of others. -/
def Processes (idx : Fin nClients) (env : Env) : Prop :=
  ((s.session idx).txBusy = false → s.queue ≠ none → (s.session idx).id ≠ none) ∧
    ∀ i ∈ s.expiring idx env, Removable s s.requests i

end State

theorem Good.process (h : Good s l) (hprocess : s.Processes idx env) :
    ∃ s' l', s.process idx env = some s' ∧ Good s' l' ∧
      Processed s s' (s.first idx env) env.ticks := by
  obtain ⟨hsettings, hexpiring⟩ := hprocess
  rw [State.expiring, h.queued.requests_eq] at hexpiring
  rw [State.process, State.first, h.queued.requests_eq]
  cases hbusy : (s.session idx).txBusy with
  | true =>
    rw [if_pos rfl, if_pos rfl]
    exact ⟨s, l, rfl, h, .refl s env.ticks⟩
  | false =>
    rw [if_neg Bool.false_ne_true, if_neg Bool.false_ne_true]
    rw [hbusy, if_neg Bool.false_ne_true] at hexpiring
    cases hid : (s.session idx).id with
    | none =>
      have hqueue : s.queue = none := by
        by_contra hne
        exact hsettings hbusy hne hid
      rw [hqueue]
      exact ⟨s, l, rfl, h, .refl s env.ticks⟩
    | some id =>
      rw [hid, Option.elim_some] at hexpiring
      rw [h.queued.chain.head_eq, Option.bind_some]
      have hgood : Good s ([] ++ l) := h
      apply hgood.processLoop hid h.queued.length_le
      intro i hi hexp
      exact hexpiring i (List.mem_filter.mpr ⟨hi, hexp⟩)

end ModbusTcp

end Inspector
