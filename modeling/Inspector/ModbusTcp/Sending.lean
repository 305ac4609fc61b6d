import Inspector.ModbusTcp.Process

/-! # Sending requests

A new request is put behind the others. The one of a blocking send is processed at once, and the
send begins to wait for it when it has been transmitted in the same tick.
-/

namespace Inspector

namespace ModbusTcp

open Modbus (Callbacks)
open Streams (Allocator)

variable {s s' : State} {l l₁ l₂ : List ℕ} {q i : ℕ} {idx : Fin nClients} {env : Env}

theorem Good.mem_allocated (h : Good s l) (hq : q ∈ s.waiting) :
    s.entry q = some (s.entries q) := h.queued.entry_eq (h.queued.waiting hq)

/-- A new entry has been put behind the others. -/
structure Appended (s s' : State) (l : List ℕ) (i : ℕ) (e : Entry) : Prop where
  fresh : i ∉ l
  chain : Linked.Chain s'.next s'.queue (l ++ [i])
  allocated : s'.allocated = i :: s.allocated
  session : s'.session = s.session
  waiting : s'.waiting = s.waiting
  made : s'.made = s.made + 1
  history : s'.history = s.history
  data : ∀ j ∈ l, s'.data j = s.data j
  entry : s'.data i = e

theorem State.next_create (alloc : Allocator) (e : Entry) :
    (s.create alloc e).next = Function.update s.next (alloc.malloc s.allocated) e.next := by
  ext1 j
  by_cases h : j = alloc.malloc s.allocated <;> simp [next, create, h]

theorem State.data_create (alloc : Allocator) (e : Entry) :
    (s.create alloc e).data =
      Function.update s.data (alloc.malloc s.allocated) { e with next := none } := by
  ext1 j
  by_cases h : j = alloc.malloc s.allocated <;> simp [data, create, h]

/-- The loop that looks for the last entry finds it. -/
theorem Queued.append (h : Queued s l) (alloc : Allocator) (e : Entry) (he : e.next = none) :
    ∃ s', (s.create alloc e).append (alloc.malloc s.allocated) = some s' ∧
      Appended s s' l (alloc.malloc s.allocated) e := by
  have hfresh : alloc.malloc s.allocated ∉ l := fun hm =>
    alloc.fresh _ (h.allocated.subset hm)
  have hentry : e = { e with next := none } := by
    cases e
    cases he
    rfl
  have hdata : ∀ j ∈ l, (s.create alloc e).data j = s.data j := by
    intro j hj
    have hne : j ≠ alloc.malloc s.allocated := fun he => hfresh (he ▸ hj)
    rw [State.data_create, Function.update_of_ne hne]
  have hself : (s.create alloc e).data (alloc.malloc s.allocated) = e := by
    rw [State.data_create, Function.update_self, ← hentry]
  have hqueue : (s.create alloc e).queue = s.queue := rfl
  rw [State.append, hqueue]
  cases hq : s.queue with
  | none =>
    have hchain := h.chain
    rw [hq] at hchain
    obtain rfl := Linked.chain_none_iff.mp hchain
    refine ⟨_, rfl, hfresh, ?_, rfl, rfl, rfl, rfl, rfl, hdata, hself⟩
    apply Linked.Chain.cons
    change Linked.Chain (s.create alloc e).next ((s.create alloc e).next _) []
    rw [State.next_create, Function.update_self, he]
    exact .nil
  | some a =>
    have hnext :
        (s.create alloc e).next = Function.update s.next (alloc.malloc s.allocated) none := by
      rw [State.next_create, he]
    have hchain : Linked.Chain (s.create alloc e).next (s.create alloc e).queue l := by
      rw [hnext]
      exact h.chain.update hfresh
    have hread : ∀ j ∈ l, (s.create alloc e).entry j = some ((s.create alloc e).entries j) :=
      fun j hj => if_pos (List.mem_cons_of_mem _ (h.allocated.subset hj))
    have hfuel : l.length ≤ (s.create alloc e).bound :=
      h.length_le.trans (Nat.le_succ _)
    rcases Linked.scan_eq (p := fun _ (e : Entry) => e.next.isNone) hchain hread hfuel none with
      ⟨hall, -⟩ | ⟨l₁, t, l₂, rfl, ht, -, hscan⟩
    · -- the last entry has none behind it
      rcases List.eq_nil_or_concat l with rfl | ⟨k, t, rfl⟩
      · have hnil := h.chain
        rw [hq] at hnil
        exact absurd (Linked.chain_nil_iff.mp hnil) (Option.some_ne_none a)
      · rw [List.concat_eq_append] at hchain hall
        have hlast : (s.create alloc e).next t = none := Linked.chain_nil_iff.mp hchain.suffix
        have hsome := hall t (List.mem_append_right k (List.mem_singleton_self t))
        change ((s.create alloc e).next t).isNone = false at hsome
        rw [hlast] at hsome
        cases hsome
    · have hnone : (s.create alloc e).next t = none := Option.isNone_iff_eq_none.mp ht
      obtain rfl : l₂ = [] := by
        have htail := hchain.suffix
        rw [hnone] at htail
        exact Linked.chain_none_iff.mp htail
      have hti : t ≠ alloc.malloc s.allocated := fun he =>
        hfresh (he ▸ List.mem_append_right _ List.mem_cons_self)
      refine ⟨(s.create alloc e).setNext t (some (alloc.malloc s.allocated)), ?_, hfresh, ?_, rfl,
        rfl, rfl, rfl, rfl, ?_, ?_⟩
      · rw [State.scan, hscan]
        rfl
      · change Linked.Chain ((s.create alloc e).setNext t _).next s.queue _
        have hold : s.next t = none := by
          rwa [hnext, Function.update_of_ne hti] at hnone
        rw [State.next_setNext, hnext, List.append_assoc, ← hold]
        exact h.chain.insert h.nodup hfresh
      · rw [State.data_setNext]
        exact hdata
      · rw [State.data_setNext]
        exact hself

/-- A request has been queued; a blocking send waits for its entry. -/
theorem Appended.good {e : Entry} (happ : Appended s s' l i e) (h : Good s l)
    (hnumber : e.number = s.made) :
    Good { s' with waiting := if e.sync then i :: s.waiting else s.waiting } (l ++ [i]) := by
  have hsync : (s'.entries i).sync = e.sync := by
    rw [← happ.entry]
    rfl
  have hwaiting : ∀ j ∈ (if e.sync then i :: s.waiting else s.waiting),
      j = i ∧ e.sync = true ∨ j ∈ l ∧ j ∈ s.waiting := by
    intro j hj
    split_ifs at hj with hs
    · rcases List.mem_cons.mp hj with rfl | hj
      · exact .inl ⟨rfl, hs⟩
      · exact .inr ⟨h.queued.waiting hj, hj⟩
    · exact .inr ⟨h.queued.waiting hj, hj⟩
  have hself : s'.number i = s.made := by
    rw [← hnumber, ← happ.entry]
    rfl
  have hmem : ∀ j ∈ l ++ [i], j ∈ l ∨ j = i := by
    intro j hj
    rwa [List.mem_append, List.mem_singleton] at hj
  have hreports : s'.reports = s.reports := by
    ext1 k
    rw [State.reports, happ.history]
    rfl
  obtain ⟨hqueued, haccounted, hquiet, hwaits⟩ := h
  refine ⟨⟨happ.chain, ?_, ?_, ?_, ?_⟩, ⟨?_, ?_, ?_, ?_, ?_⟩, ?_, ?_⟩
  · rw [← List.concat_eq_append]
    exact hqueued.nodup.concat happ.fresh
  · rw [happ.allocated]
    exact (List.perm_append_singleton i l).trans (hqueued.allocated.cons i)
  · intro j hj
    rcases hwaiting j hj with ⟨rfl, -⟩ | ⟨hl, -⟩
    · exact List.mem_append_right l (List.mem_singleton_self j)
    · exact List.mem_append_left _ hl
  · change (if e.sync then i :: s.waiting else s.waiting).Nodup
    split_ifs
    · exact List.nodup_cons.mpr ⟨fun hw => happ.fresh (hqueued.waiting hw), hqueued.nodup_waiting⟩
    · exact hqueued.nodup_waiting
  · have hold : l.map s'.number = l.map s.number :=
      List.map_congr_left fun j hj => State.number_congr (happ.data j hj)
    change (l ++ [i]).map s'.number =
      (List.range s'.made).filter fun k => .unlinked k ∉ s'.history
    rw [List.map_append, List.map_singleton, hold, hself, haccounted.numbers, happ.made,
      happ.history, List.range_succ, List.filter_append, List.filter_singleton,
      decide_eq_true (haccounted.future s.made (Nat.le_refl _)).1]
    rfl
  · rw [happ.history]
    exact haccounted.settled
  · intro j hj hs
    rcases hwaiting j hj with ⟨rfl, hsync'⟩ | ⟨hl, hw⟩
    · exact absurd ((hsync.symm.trans hs).symm.trans hsync') Bool.false_ne_true
    · rw [happ.history]
      change Event.replied (s'.number j) ∈ _
      rw [State.number_congr (happ.data j hl)]
      exact haccounted.answered j hw (State.sync_congr (happ.data j hl) ▸ hs)
  · change ∀ k, s'.reports k ≤ 1
    rw [hreports]
    exact haccounted.once
  · intro k hk
    have hk' : s.made ≤ k := by
      change s'.made ≤ k at hk
      rw [happ.made] at hk
      exact Nat.le_of_succ_le hk
    change .unlinked k ∉ s'.history ∧ s'.reports k = 0
    rw [happ.history, hreports]
    exact haccounted.future k hk'
  · intro j hj hs
    change s'.reports (s'.number j) = 0
    rw [hreports]
    rcases hmem j hj with hl | rfl
    · rw [State.number_congr (happ.data j hl)]
      apply hquiet j hl
      intro hw
      rw [← State.sync_congr (happ.data j hl)]
      apply hs
      change j ∈ if e.sync then i :: s.waiting else s.waiting
      split_ifs
      · exact List.mem_cons_of_mem i hw
      · exact hw
    · rw [hself]
      exact (haccounted.future s.made (Nat.le_refl _)).2
  · intro j hj hs
    change j ∈ if e.sync then i :: s.waiting else s.waiting
    rcases hmem j hj with hl | rfl
    · have hw := hwaits j hl (State.sync_congr (happ.data j hl) ▸ hs)
      split_ifs
      · exact List.mem_cons_of_mem i hw
      · exact hw
    · rw [if_pos (hsync ▸ hs)]
      exact List.mem_cons_self

namespace State

variable (s) (alloc : Allocator)

/-- The request of a blocking send is transmitted when it has been queued. -/
def AtOnce (idx : Fin nClients) (env : Env) (pdu : Pdu) : Prop :=
  (s.session idx).txBusy = false ∧ 1 ≤ pdu.length ∧ env.write (alloc.malloc s.allocated) = true ∧
    ∀ i ∈ s.requests, s.goes pdu.uid env i = false

instance (idx : Fin nClients) (env : Env) (pdu : Pdu) : Decidable (s.AtOnce alloc idx env pdu) :=
  inferInstanceAs (Decidable (_ ∧ _))

/-- A blocking send begins to wait; nothing that is waited for or in front is unlinked before. -/
def Blocks (before : UInt32) (idx : Fin nClients) (env : Env) (pdu : Pdu) : Prop :=
  (∀ i ∈ s.expiring idx env, i ∉ s.waiting ∧ s.requests.head? ≠ some i) ∧
    before - (if s.AtOnce alloc idx env pdu then env.ticks else 0) < 50

end State

theorem State.id_of_sessionOf {uid : UInt8} {m : List (Fin nClients)}
    (h : s.sessionOf uid m = some (some idx)) : (s.session idx).id = some uid := by
  induction m with
  | nil => cases h
  | cons k m ih =>
    rw [sessionOf] at h
    obtain ⟨id, hid, hm⟩ := Option.bind_eq_some_iff.mp h
    split_ifs at hm with huid
    · obtain rfl := Option.some.inj (Option.some.inj hm)
      rw [hid, huid]
    · exact ih hm

theorem mem_takeWhile_of_append {p p' : ℕ → Bool} {j : ℕ} (h : ∀ k ∈ l, p k = p' k)
    (hj : j ∈ (l ++ [i]).takeWhile p) (hne : j ≠ i) : j ∈ l.takeWhile p' := by
  induction l with
  | nil => exact absurd (List.mem_singleton.mp ((List.takeWhile_subset p) hj)) hne
  | cons a l ih =>
    have ha := h a List.mem_cons_self
    rw [List.cons_append] at hj
    cases hp : p a with
    | true =>
      rw [List.takeWhile_cons_of_pos hp] at hj
      rw [List.takeWhile_cons_of_pos (ha ▸ hp)]
      rcases List.mem_cons.mp hj with rfl | hj
      · exact List.mem_cons_self
      · exact List.mem_cons_of_mem a (ih (fun k hk => h k (List.mem_cons_of_mem a hk)) hj)
    | false =>
      rw [List.takeWhile_cons_of_neg (by rw [hp]; exact Bool.false_ne_true)] at hj
      cases hj

variable {alloc : Allocator} {before : UInt32} {pdu : Pdu}

theorem Appended.goes_iff {callbacks : Option Callbacks} {context : ℕ} {block : Bool}
    (happ : Appended s s' l i (s.newEntry pdu callbacks context block)) (huid : pdu.uid ≠ 0) :
    s'.goes pdu.uid env i = true ↔ 1 ≤ pdu.length ∧ env.write i = true := by
  have hgoes : s'.goes pdu.uid env i =
      (s.newEntry pdu callbacks context block).goes pdu.uid (env.write i) := by
    rw [← happ.entry]
    rfl
  rw [hgoes, Entry.goes, decide_eq_true_iff]
  simp only [State.newEntry, Pdu.copy]
  split_ifs with hlen
  · simp [hlen]
  · exact iff_of_false (fun hno => huid hno.1.symm) fun hno => hlen hno.1

/-- The new entry is transmitted when none in front of it is. -/
theorem Appended.first_eq_iff {callbacks : Option Callbacks} {context : ℕ} {block : Bool}
    (happ : Appended s s' l i (s.newEntry pdu callbacks context block)) (h : Good s l)
    (hrequests : s'.requests = l ++ [i]) (hid : (s.session idx).id = some pdu.uid)
    (huid : pdu.uid ≠ 0) :
    s'.first idx env = some i ↔ (s.session idx).txBusy = false ∧ 1 ≤ pdu.length ∧
      env.write i = true ∧ ∀ j ∈ s.requests, s.goes pdu.uid env j = false := by
  have hgoes : ∀ j ∈ l, s'.goes pdu.uid env j = s.goes pdu.uid env j := fun j hj =>
    State.data_congr (fun e => e.goes pdu.uid (env.write j)) (fun _ _ => rfl) (happ.data j hj)
  rw [State.first, happ.session, hid, hrequests, Option.bind_some, h.queued.requests_eq,
    List.find?_append]
  cases hbusy : (s.session idx).txBusy with
  | true => simp
  | false =>
    rw [if_neg Bool.false_ne_true]
    cases hfind : l.find? fun j => s'.goes pdu.uid env j with
    | some j =>
      have hj := List.mem_of_find?_eq_some hfind
      have hjgoes := List.find?_some hfind
      refine iff_of_false ?_ fun hno => ?_
      · intro he
        exact happ.fresh (Option.some.inj he ▸ hj)
      · rw [hgoes j hj, hno.2.2.2 j hj] at hjgoes
        cases hjgoes
    | none =>
      have hall : ∀ j ∈ l, s.goes pdu.uid env j = false := by
        intro j hj
        rw [← hgoes j hj]
        exact Bool.eq_false_iff.mpr (List.find?_eq_none.mp hfind j hj)
      rw [Option.none_or, List.find?_singleton]
      have hiff : s'.goes pdu.uid env i = true ↔ _ := happ.goes_iff huid
      split_ifs with hi
      · exact iff_of_true rfl ⟨rfl, (hiff.mp hi).1, (hiff.mp hi).2, hall⟩
      · exact iff_of_false (by simp) fun hno => hi (hiff.mpr ⟨hno.2.1, hno.2.2.1⟩)

/-- What `modbus_process` unlinks of the queue with the new entry is neither waited for nor in
front. -/
theorem Appended.processes {callbacks : Option Callbacks} {context : ℕ} {block : Bool}
    (happ : Appended s s' l i (s.newEntry pdu callbacks context block)) (h : Good s l)
    (hrequests : s'.requests = l ++ [i]) (hid : (s.session idx).id = some pdu.uid)
    (hexpiring : ∀ j ∈ s.expiring idx env, j ∉ s.waiting ∧ s.requests.head? ≠ some j) :
    ({ s' with waiting := i :: s.waiting } : State).Processes idx env := by
  refine ⟨fun _ _ => ?_, fun j hj => ?_⟩
  · change (s'.session idx).id ≠ none
    rw [happ.session, hid]
    exact Option.some_ne_none _
  · change j ∈ s'.expiring idx env at hj
    change Removable _ s'.requests j
    rw [State.expiring, happ.session, hid, hrequests] at hj
    rw [State.expiring, hid, h.queued.requests_eq] at hexpiring
    rw [hrequests]
    split_ifs at hj hexpiring with hbusy
    · cases hj
    · obtain ⟨hreached, hexp⟩ := List.mem_filter.mp hj
      have hne : j ≠ i := by
        rintro rfl
        have hfalse : s'.expires pdu.uid env j =
            (s.newEntry pdu callbacks context block).expires pdu.uid env.ticks := by
          rw [← happ.entry]
          rfl
        rw [hfalse] at hexp
        simp [Entry.expires, State.newEntry] at hexp
      have hgoes : ∀ k ∈ l, (!s'.goes pdu.uid env k) = !s.goes pdu.uid env k := fun k hk =>
        congrArg not (State.data_congr (fun e => e.goes pdu.uid (env.write k)) (fun _ _ => rfl)
          (happ.data k hk))
      have hreached' := mem_takeWhile_of_append hgoes hreached hne
      have hjl : j ∈ l := List.takeWhile_subset _ hreached'
      have hexp' : s.expires pdu.uid env j = true := by
        rw [← hexp]
        exact (State.data_congr (fun e => e.expires pdu.uid env.ticks) (fun _ _ => rfl)
          (happ.data j hjl)).symm
      obtain ⟨hwaits, hhead⟩ := hexpiring j (List.mem_filter.mpr ⟨hreached', hexp'⟩)
      refine ⟨?_, fun hfirst => absurd ?_ hhead⟩
      · rintro (_ | ⟨_, hw⟩)
        · exact hne rfl
        · exact hwaits hw
      · cases l with
        | nil => cases hjl
        | cons a l => exact hfirst

/-- A blocking send that meets the condition begins to wait. -/
theorem Appended.block {callbacks : Option Callbacks} {context : ℕ}
    (happ : Appended s s' l (alloc.malloc s.allocated) (s.newEntry pdu callbacks context true))
    (h : Good s l) (hid : (s.session idx).id = some pdu.uid) (huid : pdu.uid ≠ 0)
    (hblocks : s.Blocks alloc before idx env pdu) :
    ∃ s₁ l', s'.block (alloc.malloc s.allocated) before idx env = some s₁ ∧ Good s₁ l' := by
  obtain ⟨hexpiring, hwait⟩ := hblocks
  have hgood := happ.good h rfl
  rw [State.newEntry, if_pos rfl] at hgood
  have hrequests : s'.requests = l ++ [alloc.malloc s.allocated] := hgood.queued.requests_eq
  have hprocesses := happ.processes h hrequests hid hexpiring
  obtain ⟨s₁, l', hprocess, hgood₁, hprocessed⟩ := hgood.process hprocesses
  have hwaiting : s₁.waiting = alloc.malloc s.allocated :: s.waiting := hprocessed.waiting
  have hmem : alloc.malloc s.allocated ∈ s₁.waiting := by
    rw [hwaiting]
    exact List.mem_cons_self
  have hsync : (s₁.entries (alloc.malloc s.allocated)).sync = true := by
    rw [hprocessed.sync]
    change (s'.data (alloc.malloc s.allocated)).sync = true
    rw [happ.entry]
    rfl
  have htimeout : (s₁.entries (alloc.malloc s.allocated)).timeout =
      if s.AtOnce alloc idx env pdu then env.ticks else 0 := by
    have hfirst : s'.first idx env = _ ↔ _ := happ.first_eq_iff h hrequests hid huid
    rw [hprocessed.timeout]
    apply ite_congr
    · exact propext hfirst
    · exact fun _ => rfl
    · intro _
      change (s'.data (alloc.malloc s.allocated)).timeout = 0
      rw [happ.entry]
      rfl
  refine ⟨s₁, l', ?_, hgood₁⟩
  rw [State.block, happ.waiting, hprocess, Option.bind_some, State.turn, hwaiting]
  simp only [hgood₁.mem_allocated hmem, Option.bind_some]
  rw [if_pos ⟨hsync, by rw [htimeout]; exact hwait⟩]

/-- A send finds the session of the unit, and begins to wait if it blocks. -/
def State.Sends (s : State) (alloc : Allocator) (before : UInt32) (env : Env) (pdu : Pdu)
    (block : Bool) : Prop :=
  s.findSession pdu.uid ≠ none ∧
    ∀ r ∈ s.findSession pdu.uid, ∀ idx ∈ r, pdu.uid ≠ 0 → block = true →
      s.Blocks alloc before idx env pdu

theorem Good.send (h : Good s l) {block : Bool} (hsends : s.Sends alloc before env pdu block)
    (callbacks : Option Callbacks) (context : ℕ) :
    ∃ r s' l', s.modbusTcpSend alloc before env pdu callbacks context block = some (r, s') ∧
      Good s' l' := by
  obtain ⟨hfind, hblocks⟩ := hsends
  rw [State.modbusTcpSend]
  cases hr : s.findSession pdu.uid with
  | none => exact absurd hr hfind
  | some r =>
    rw [Option.bind_some]
    cases r with
    | none => exact ⟨false, s, l, rfl, h⟩
    | some idx =>
      by_cases huid : pdu.uid = 0
      · exact ⟨false, s, l, if_pos huid, h⟩
      · obtain ⟨s', happend, happ⟩ :=
          h.queued.append alloc (s.newEntry pdu callbacks context block) rfl
        simp only [if_neg huid, happend, Option.bind_some]
        cases block with
        | true =>
          obtain ⟨s₁, l', hblock, hgood⟩ := happ.block h (State.id_of_sessionOf hr) huid
            (hblocks _ hr idx rfl huid rfl)
          refine ⟨true, s₁, l', ?_, hgood⟩
          rw [if_pos rfl, hblock]
          rfl
        | false =>
          refine ⟨true, s', _, rfl,
            (happ.good h rfl).congr rfl rfl (fun _ => rfl) rfl rfl ?_ rfl rfl⟩
          exact happ.waiting

end ModbusTcp

end Inspector
