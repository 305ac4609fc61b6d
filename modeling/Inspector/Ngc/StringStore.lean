import Inspector.Ngc.StringParams

/-! # The store of string parameters

Whatever `realloc` does, the nodes stay linked, each identifier has one of them, and a value is read
as it was set last.
-/

namespace Inspector

namespace Ngc

open Streams (Allocator)

variable {alloc : Allocator} {s s' : StringParams} {l l₁ l₂ : List ℕ} {t a : ℕ} {id : UInt32}
variable {value : Name} {r : Realloc}

namespace StringParams

def next (s : StringParams) (i : ℕ) : Option ℕ := (s.nodes i).next

/-- What is in a node, apart from its place in the list. -/
def data (s : StringParams) (i : ℕ) : UInt32 × ℕ × Name :=
  ((s.nodes i).id, (s.nodes i).len, (s.nodes i).value)

/-- A node is written. -/
def put (s : StringParams) (i : ℕ) (p : StringParam) : StringParams :=
  { s with nodes := Function.update s.nodes i p }

theorem setNode_eq {i : ℕ} (hi : i ∈ s.allocated) (p : StringParam) :
    s.setNode i p = some (s.put i p) := if_pos hi

theorem node_eq {i : ℕ} (hi : i ∈ s.allocated) : s.node i = some (s.nodes i) := if_pos hi

theorem nodes_put_self (i : ℕ) (p : StringParam) : (s.put i p).nodes i = p := by
  simp [put]

theorem next_put (i : ℕ) (p : StringParam) :
    (s.put i p).next = Function.update s.next i p.next := by
  ext1 j
  by_cases h : j = i <;> simp [next, put, h]

theorem data_put (i : ℕ) (p : StringParam) :
    (s.put i p).data = Function.update s.data i (p.id, p.len, p.value) := by
  ext1 j
  by_cases h : j = i <;> simp [data, put, h]

theorem map_data_put {i : ℕ} (h : i ∉ l) (p : StringParam) :
    l.map (s.put i p).data = l.map s.data := by
  refine List.map_congr_left fun j hj => ?_
  rw [data_put]
  exact Function.update_of_ne (fun heq : j = i => h (heq ▸ hj)) _ _

/-- A node points to another one. -/
def point (s : StringParams) (i : ℕ) (v : Option ℕ) : StringParams :=
  s.put i { s.nodes i with next := v }

theorem next_point (i : ℕ) (v : Option ℕ) :
    (s.point i v).next = Function.update s.next i v := next_put i _

theorem data_point (i : ℕ) (v : Option ℕ) : (s.point i v).data = s.data :=
  (data_put i _).trans (Function.update_eq_self i s.data)

end StringParams

/-- The nodes are linked from the head, and are those allocated. -/
structure Listed (s : StringParams) (l : List ℕ) : Prop where
  chain : Linked.Chain s.next s.head l
  nodup : l.Nodup
  allocated : l.Perm s.allocated

theorem listed_init : Listed {} [] := ⟨.nil, List.nodup_nil, .refl []⟩

theorem Listed.node_eq (h : Listed s l) {i : ℕ} (hi : i ∈ l) : s.node i = some (s.nodes i) :=
  if_pos (h.allocated.subset hi)

theorem Listed.length_le (h : Listed s l) : l.length ≤ s.bound := by
  rw [StringParams.bound, h.allocated.length_eq]
  exact Nat.le_succ _

/-- The loops stop at the first node that meets the condition. -/
theorem Listed.scan_eq (h : Listed s l) (p : StringParam → Bool) :
    (∀ i ∈ l, p (s.nodes i) = false) ∧ s.scan p = some (l.getLast?, none) ∨
    ∃ l₁ t l₂, l = l₁ ++ t :: l₂ ∧ p (s.nodes t) = true ∧ (∀ i ∈ l₁, p (s.nodes i) = false) ∧
      s.scan p = some (l₁.getLast?, some t) := by
  have hscan := Linked.scan_eq (p := fun _ => p) h.chain (fun i hi => h.node_eq hi)
    h.length_le none
  simp only [Option.or_none] at hscan
  exact hscan

/-- Nothing but the place of nodes outside of the list has changed. -/
theorem Listed.congr (h : Listed s l) (hnext : ∀ i ∈ l, s'.next i = s.next i)
    (hhead : s'.head = s.head) (hallocated : s'.allocated = s.allocated) : Listed s' l where
  chain := hhead ▸ h.chain.congr hnext
  nodup := h.nodup
  allocated := hallocated ▸ h.allocated

/-- The loops stop at a given node that is the first to meet the condition. -/
theorem Listed.scan_of_split (h : Listed s (l₁ ++ t :: l₂)) {p : StringParam → Bool}
    (ht : p (s.nodes t) = true) (hfront : ∀ i ∈ l₁, p (s.nodes i) = false) :
    s.scan p = some (l₁.getLast?, some t) := by
  have hscan := Linked.scan_append (p := fun _ => p) h.chain
    (fun i hi => h.node_eq (by
      rw [List.append_cons]
      exact List.mem_append_left l₂ hi)) ht hfront
    (lt_of_lt_of_le (by simp) h.length_le) none
  rwa [Option.or_none] at hscan

/-- What follows a node in front of another one of the list. -/
theorem Listed.next_mem (h : Listed s (l₁ ++ t :: l₂)) {i : ℕ} (hi : i ∈ l₁) :
    ∃ j ∈ (l₁ ++ [t]).tail, s.next i = some j := by
  obtain ⟨k, m, rfl⟩ := List.append_of_mem hi
  have hchain := h.chain
  rw [List.append_assoc, List.cons_append] at hchain
  have hhead := hchain.suffix.head_eq
  cases m with
  | nil =>
    refine ⟨t, ?_, hhead⟩
    cases k <;> simp
  | cons j m =>
    refine ⟨j, ?_, hhead⟩
    cases k <;> simp

section Delete

theorem Listed.perm_erase (h : Listed s (l₁ ++ t :: l₂)) :
    (l₁ ++ l₂).Perm (s.allocated.erase t) := by
  have hfront : t ∉ l₁ := fun ht => by
    obtain ⟨-, -, hdisjoint⟩ := List.nodup_append.mp h.nodup
    exact hdisjoint t ht t List.mem_cons_self rfl
  have herase := h.allocated.erase t
  rwa [List.erase_append_right _ hfront, List.erase_cons_head] at herase

theorem Listed.nodup_erase (h : Listed s (l₁ ++ t :: l₂)) : (l₁ ++ l₂).Nodup :=
  h.nodup.sublist (List.Sublist.append (.refl l₁) (List.sublist_cons_self t l₂))

/-- A node is taken out of the list and freed. -/
theorem Listed.delete (h : Listed s (l₁ ++ t :: l₂)) (ht : (s.nodes t).id = id)
    (hfront : ∀ i ∈ l₁, (s.nodes i).id ≠ id) :
    ∃ s', s.ngcStringParamDelete id = some s' ∧ Listed s' (l₁ ++ l₂) ∧ s'.data = s.data ∧
      s'.refId = s.refId := by
  have htmem : t ∈ l₁ ++ t :: l₂ := List.mem_append_right _ List.mem_cons_self
  rw [StringParams.ngcStringParamDelete, h.chain.head_eq]
  rcases List.eq_nil_or_concat' l₁ with rfl | ⟨k, p, rfl⟩
  · rw [List.nil_append] at h htmem ⊢
    simp only [List.head?_cons]
    rw [h.node_eq htmem, Option.bind_some, if_pos ht, StringParams.free,
      if_pos (h.allocated.subset htmem)]
    have hfirst : Listed s ([] ++ t :: l₂) := h
    refine ⟨_, rfl, ⟨?_, hfirst.nodup_erase, hfirst.perm_erase⟩, rfl, rfl⟩
    exact (Linked.chain_cons_iff.mp h.chain).2
  · have hp : Listed s (k ++ p :: t :: l₂) := by rwa [List.append_assoc] at h
    have hmem : ∀ i ∈ k ++ [p], i ∈ k ++ [p] ++ t :: l₂ := fun i hi => List.mem_append_left _ hi
    have hpmem := hmem p (List.mem_append_right _ (List.mem_singleton_self p))
    have hnext : (s.nodes p).next = some t := hp.chain.suffix.head_eq
    have hscan : s.scan (fun sr => (sr.next.bind s.node).any fun sp => sp.id = id) =
        some (k.getLast?, some p) := by
      refine hp.scan_of_split ?_ ?_
      · rw [hnext, Option.bind_some, h.node_eq htmem, Option.any_some]
        exact decide_eq_true ht
      · intro i hi
        obtain ⟨j, hj, hij⟩ := hp.next_mem hi
        have hj' := List.mem_of_mem_tail hj
        have hij' : (s.nodes i).next = some j := hij
        rw [hij', Option.bind_some, h.node_eq (hmem j hj'), Option.any_some]
        exact decide_eq_false (hfront j hj')
    obtain ⟨b, m, hb⟩ := List.exists_cons_of_ne_nil (List.concat_ne_nil p k)
    have hbmem : b ∈ k ++ [p] := hb ▸ List.mem_cons_self
    have hhead : (k ++ [p] ++ t :: l₂).head? = some b := by
      rw [hb]
      rfl
    rw [hhead]
    simp only
    rw [h.node_eq (hmem b hbmem), Option.bind_some, if_neg (hfront b hbmem), hscan]
    simp only [Option.bind_some]
    rw [h.node_eq hpmem, Option.bind_some, hnext, Option.bind_some, h.node_eq htmem,
      Option.bind_some, StringParams.setNode, if_pos (h.allocated.subset hpmem), Option.bind_some,
      StringParams.free, if_pos (h.allocated.subset htmem)]
    refine ⟨_, rfl, ⟨?_, h.nodup_erase, h.perm_erase⟩, StringParams.data_point p _, rfl⟩
    have hunlink := hp.chain.unlink hp.nodup
    rw [List.append_assoc]
    exact (StringParams.next_point p (s.next t)) ▸ hunlink

/-- Nothing is deleted when there is no node with the identifier. -/
theorem Listed.delete_none (h : Listed s l) (hall : ∀ i ∈ l, (s.nodes i).id ≠ id) :
    s.ngcStringParamDelete id = some s := by
  rw [StringParams.ngcStringParamDelete, h.chain.head_eq]
  cases l with
  | nil => rfl
  | cons b l =>
    simp only [List.head?_cons]
    rw [h.node_eq List.mem_cons_self, Option.bind_some, if_neg (hall b List.mem_cons_self)]
    rcases h.scan_eq fun sr => (sr.next.bind s.node).any fun sp => sp.id = id with
      ⟨-, hscan⟩ | ⟨l₁, t, l₂, heq, ht, -, -⟩
    · rw [hscan]
      rfl
    · exfalso
      have hchain := h.chain
      rw [heq] at hchain
      have hhead : (s.nodes t).next = l₂.head? := hchain.suffix.head_eq
      rw [hhead] at ht
      cases l₂ with
      | nil => cases ht
      | cons c l₂ =>
        have hc : c ∈ b :: l := by
          rw [heq]
          simp
        rw [List.head?_cons, Option.bind_some, h.node_eq hc, Option.any_some] at ht
        exact hall c hc (of_decide_eq_true ht)

end Delete

section Place

/-- A value is written to a node of the list. -/
theorem Listed.strcpy (h : Listed s (l₁ ++ t :: l₂)) {len : ℕ} (hlen : (s.nodes t).len = len)
    (hvalue : value.length ≤ len) :
    ∃ s', s.strcpy t value = some s' ∧ Listed s' (l₁ ++ t :: l₂) ∧
      (l₁ ++ t :: l₂).map s'.data =
        l₁.map s.data ++ ((s.nodes t).id, len, value) :: l₂.map s.data ∧
      s'.refId = s.refId := by
  have htmem := h.allocated.subset (List.mem_append_right l₁ (List.mem_cons_self : t ∈ t :: l₂))
  obtain ⟨-, htl, hdisjoint⟩ := List.nodup_append.mp h.nodup
  have hfront : t ∉ l₁ := fun ht => hdisjoint t ht t List.mem_cons_self rfl
  have hbehind : t ∉ l₂ := (List.nodup_cons.mp htl).1
  rw [StringParams.strcpy, StringParams.node_eq htmem, Option.bind_some, hlen, if_pos hvalue,
    StringParams.setNode_eq htmem]
  refine ⟨_, rfl, h.congr ?_ rfl rfl, ?_, rfl⟩
  · intro i _
    rw [StringParams.next_put]
    exact congrFun (Function.update_eq_self t s.next) i
  · rw [List.map_append, List.map_cons, StringParams.map_data_put hfront,
      StringParams.map_data_put hbehind, StringParams.data_put, Function.update_self]

/-- A new node is put behind the last one. -/
theorem Listed.place_new (h : Listed s l) (ha : a ∉ s.allocated) (id : UInt32) (len : ℕ) :
    ∃ s', ({ s with allocated := a :: s.allocated } : StringParams).place l.getLast? none a id len =
        some s' ∧ Listed s' (l ++ [a]) ∧ s'.data a = (id, len, (s.nodes a).value) ∧
      l.map s'.data = l.map s.data ∧ s'.refId = s.refId := by
  have hal : a ∉ l := fun hmem => ha (h.allocated.subset hmem)
  have hperm : (l ++ [a]).Perm (a :: s.allocated) :=
    (List.perm_append_singleton a l).trans (h.allocated.cons a)
  have hnodup : (l ++ [a]).Nodup := (List.perm_append_singleton a l).nodup_iff.mpr
    (List.nodup_cons.mpr ⟨hal, h.nodup⟩)
  let s₀ : StringParams := { s with allocated := a :: s.allocated }
  let p : StringParam := { s.nodes a with id := id, next := none, len := len }
  have ha₀ : a ∈ s₀.allocated := List.mem_cons_self
  have hdata : (s₀.put a p).data a = (id, len, (s.nodes a).value) := by
    rw [StringParams.data_put, Function.update_self]
  have hmap : l.map (s₀.put a p).data = l.map s.data := StringParams.map_data_put hal p
  rw [StringParams.place, StringParams.node_eq ha₀, Option.bind_some]
  simp only [if_true]
  rw [StringParams.setNode_eq ha₀, Option.bind_some]
  rcases List.eq_nil_or_concat' l with rfl | ⟨k, q, rfl⟩
  · refine ⟨{ s₀.put a p with head := some a }, rfl, ⟨?_, hnodup, hperm⟩, hdata, hmap, rfl⟩
    have hnext : (s₀.put a p).next a = none := by
      rw [StringParams.next_put, Function.update_self]
    refine .cons ?_
    change Linked.Chain _ ((s₀.put a p).next a) []
    rw [hnext]
    exact .nil
  · have hq : q ∈ a :: s.allocated :=
      List.mem_cons_of_mem a (h.allocated.subset (List.mem_append_right k List.mem_cons_self))
    have hlast : s.next q = none := h.chain.suffix.head_eq
    rw [List.getLast?_concat]
    simp only
    rw [StringParams.node_eq (s := s₀.put a p) hq, Option.bind_some,
      StringParams.setNode_eq (s := s₀.put a p) hq]
    refine ⟨(s₀.put a p).point q (some a), rfl, ⟨?_, hnodup, hperm⟩, ?_, ?_, rfl⟩
    · have hinsert := h.chain.insert h.nodup hal
      rw [hlast] at hinsert
      rw [StringParams.next_point, StringParams.next_put, List.append_assoc]
      exact hinsert
    · rw [StringParams.data_point, hdata]
    · rw [StringParams.data_point, hmap]

/-- A node that has grown in place stays in the list. -/
theorem Listed.place_same (h : Listed s (l₁ ++ t :: l₂)) (id : UInt32) (len : ℕ) :
    ∃ s', s.place l₁.getLast? (some t) t id len = some s' ∧ Listed s' (l₁ ++ t :: l₂) ∧
      s'.data t = ((s.nodes t).id, len, (s.nodes t).value) ∧
      l₁.map s'.data = l₁.map s.data ∧ l₂.map s'.data = l₂.map s.data ∧ s'.refId = s.refId := by
  have htmem := h.allocated.subset (List.mem_append_right l₁ (List.mem_cons_self : t ∈ t :: l₂))
  obtain ⟨-, htl, hdisjoint⟩ := List.nodup_append.mp h.nodup
  have hfront : t ∉ l₁ := fun ht => hdisjoint t ht t List.mem_cons_self rfl
  have hbehind : t ∉ l₂ := (List.nodup_cons.mp htl).1
  let p : StringParam := { s.nodes t with len := len }
  have hlisted : Listed (s.put t p) (l₁ ++ t :: l₂) := by
    refine h.congr (fun i _ => ?_) rfl rfl
    rw [StringParams.next_put]
    exact congrFun (Function.update_eq_self t s.next) i
  have hdata : (s.put t p).data t = ((s.nodes t).id, len, (s.nodes t).value) := by
    rw [StringParams.data_put, Function.update_self]
  have hplace : s.place l₁.getLast? (some t) t id len = some (s.put t p) := by
    rw [StringParams.place, StringParams.node_eq htmem, Option.bind_some]
    simp only [reduceCtorEq, if_false]
    rw [StringParams.setNode_eq htmem, Option.bind_some]
    cases l₁ with
    | nil =>
      have hhead : s.head = some t := h.chain.head_eq
      exact congrArg (fun v => some { s.put t p with head := v }) hhead.symm
    | cons b l₁ =>
      rw [List.getLast?_cons]
      exact if_neg fun hne => hne rfl
  exact ⟨_, hplace, hlisted, hdata, StringParams.map_data_put hfront p,
    StringParams.map_data_put hbehind p, rfl⟩

/-- A node that has moved takes the place of the old one. -/
theorem Listed.place_moved (h : Listed s (l₁ ++ t :: l₂)) (ha : a ∉ s.allocated) (id : UInt32)
    (len : ℕ) :
    ∃ s', ({ s with
        nodes := Function.update s.nodes a (s.nodes t)
        allocated := a :: s.allocated.erase t } : StringParams).place
          l₁.getLast? (some t) a id len = some s' ∧ Listed s' (l₁ ++ a :: l₂) ∧
      s'.data a = ((s.nodes t).id, len, (s.nodes t).value) ∧ l₁.map s'.data = l₁.map s.data ∧
      l₂.map s'.data = l₂.map s.data ∧ s'.refId = s.refId := by
  have hal : a ∉ l₁ ++ t :: l₂ := fun hmem => ha (h.allocated.subset hmem)
  have hal₁ : a ∉ l₁ := fun hmem => hal (List.mem_append_left _ hmem)
  have hal₂ : a ∉ l₂ := fun hmem => hal (List.mem_append_right _ (List.mem_cons_of_mem t hmem))
  have hperm : (l₁ ++ a :: l₂).Perm (a :: s.allocated.erase t) :=
    List.perm_middle.trans (h.perm_erase.cons a)
  have hnodup : (l₁ ++ a :: l₂).Nodup := List.perm_middle.nodup_iff.mpr
    (List.nodup_cons.mpr ⟨fun hmem => (List.mem_append.mp hmem).elim hal₁ hal₂, h.nodup_erase⟩)
  let p : StringParam := { s.nodes t with len := len }
  let s₀ : StringParams :=
    { (s.put a (s.nodes t)) with allocated := a :: s.allocated.erase t }
  have ha₀ : a ∈ s₀.allocated := List.mem_cons_self
  have hta : t ≠ a := fun heq => hal (heq ▸ List.mem_append_right _ List.mem_cons_self)
  have hcopy : s₀.nodes a = s.nodes t := Function.update_self a _ _
  have hnext : ∀ i ≠ a, (s₀.put a p).next i = s.next i := by
    intro i hi
    rw [StringParams.next_put, Function.update_of_ne hi]
    exact congrArg StringParam.next (Function.update_of_ne hi _ _)
  have hnexta : (s₀.put a p).next a = s.next t := by
    rw [StringParams.next_put, Function.update_self]
    rfl
  have hdata : (s₀.put a p).data a = ((s.nodes t).id, len, (s.nodes t).value) := by
    rw [StringParams.data_put, Function.update_self]
  have hmap : ∀ m : List ℕ, a ∉ m → m.map (s₀.put a p).data = m.map s.data := by
    intro m hm
    rw [StringParams.map_data_put hm]
    exact StringParams.map_data_put hm _
  have hbehind : Linked.Chain (s₀.put a p).next (some a) (a :: l₂) := by
    refine .cons ?_
    rw [hnexta]
    exact h.chain.suffix.congr fun i hi => hnext i fun heq => hal₂ (heq ▸ hi)
  have hput : ({ s with
      nodes := Function.update s.nodes a (s.nodes t)
      allocated := a :: s.allocated.erase t } : StringParams) = s₀ := rfl
  rw [hput, StringParams.place, StringParams.node_eq ha₀, Option.bind_some, hcopy]
  simp only [reduceCtorEq, if_false]
  rw [StringParams.setNode_eq ha₀, Option.bind_some]
  rcases List.eq_nil_or_concat' l₁ with rfl | ⟨k, q, rfl⟩
  · exact ⟨{ s₀.put a p with head := some a }, rfl, ⟨hbehind, hnodup, hperm⟩, hdata, rfl,
      hmap l₂ hal₂, rfl⟩
  · have hp : Listed s (k ++ q :: t :: l₂) := by rwa [List.append_assoc] at h
    obtain ⟨-, hql, hdisjoint⟩ := List.nodup_append.mp h.nodup
    have hfront : t ∉ k ++ [q] := fun ht => hdisjoint t ht t List.mem_cons_self rfl
    have hread : ∀ i ∈ k ++ [q], i ∈ (s₀.put a p).allocated := by
      intro i hi
      have hne : i ≠ t := fun heq => hfront (heq ▸ hi)
      exact List.mem_cons_of_mem a ((List.mem_erase_of_ne hne).mpr
        (h.allocated.subset (List.mem_append_left _ hi)))
    have hchain : Linked.Chain (s₀.put a p).next (s₀.put a p).head (k ++ q :: t :: l₂) :=
      hp.chain.congr fun i hi => hnext i fun heq =>
        hal (heq ▸ (List.append_assoc k [q] (t :: l₂) ▸ hi))
    have hqa : q ≠ a := fun heq => hal₁ (heq ▸ List.mem_append_right k (List.mem_singleton_self q))
    have hscan : (s₀.put a p).scan (fun sr => sr.next = some t) = some (k.getLast?, some q) := by
      have hbound : k.length < (s₀.put a p).bound := by
        have hlen := h.perm_erase.length_eq
        simp only [List.length_append, List.length_singleton] at hlen
        change k.length < (a :: s.allocated.erase t).length + 1
        rw [List.length_cons]
        omega
      have happend : Linked.scan (s₀.put a p).node StringParam.next
          (fun _ sr => decide (sr.next = some t)) (s₀.put a p).bound none (s₀.put a p).head =
          some (k.getLast?.or none, some q) := by
        have hlinks : Linked.Chain (fun i => ((s₀.put a p).nodes i).next) (s₀.put a p).head
            (k ++ q :: t :: l₂) := hchain
        refine Linked.scan_append hlinks (fun i hi => StringParams.node_eq (hread i hi)) ?_ ?_
          hbound none
        · exact decide_eq_true ((hnext q hqa).trans hp.chain.suffix.head_eq)
        · intro i hi
          obtain ⟨j, hj, hij⟩ := hp.next_mem hi
          have hia : i ≠ a := fun heq => hal₁ (heq ▸ List.mem_append_left _ hi)
          refine decide_eq_false ?_
          intro heq
          have hji := (hnext i hia).symm.trans heq
          rw [hij] at hji
          exact hfront (Option.some.inj hji ▸ List.mem_of_mem_tail hj)
      rwa [Option.or_none] at happend
    have hqmem := hread q (List.mem_append_right k (List.mem_singleton_self q))
    rw [List.getLast?_concat]
    simp only
    rw [if_pos hta, StringParams.relink, hscan]
    simp only [Option.bind_some]
    rw [StringParams.node_eq hqmem, Option.bind_some, StringParams.setNode_eq hqmem]
    refine ⟨(s₀.put a p).point q (some a), rfl, ⟨?_, hnodup, hperm⟩, ?_, ?_, ?_, rfl⟩
    · obtain ⟨hk, hq, hkq⟩ := List.nodup_append.mp hp.nodup
      have hreplace := hchain.replace (fun hqk => hkq q hqk q List.mem_cons_self rfl) hbehind
        (fun hmem => by
          rcases List.mem_cons.mp hmem with heq | hmem
          · exact hqa heq
          · exact (List.nodup_cons.mp hq).1 (List.mem_cons_of_mem t hmem))
      rw [StringParams.next_point, List.append_assoc]
      exact hreplace
    · rw [StringParams.data_point, hdata]
    · rw [StringParams.data_point, hmap _ hal₁]
    · rw [StringParams.data_point, hmap _ hal₂]

end Place

end Ngc

end Inspector
