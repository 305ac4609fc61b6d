import Inspector.Keyed.List
import Inspector.Ngc.StringStore

/-! # Runs of string parameter calls

A store is a keyed list, and the calls write and remove its entries. The identifiers of names are
counted down, and are new as long as the counter stays above the identifiers of the users.
-/

namespace Inspector

namespace Ngc

open Streams (Allocator)

variable {alloc : Allocator} {s s' : StringParams} {l l' l₁ l₂ : List ℕ} {t : ℕ} {id : UInt32}
variable {value name : Name} {r : Realloc} {len : ℕ}

/-- Each identifier has one node, and the values fit their nodes. -/
structure Stored (s : StringParams) (l : List ℕ) : Prop extends Listed s l where
  ids : ((l.map s.data).map Prod.fst).Nodup
  fits : ∀ e ∈ l.map s.data, e.2.2.length ≤ e.2.1

theorem stored_init : Stored {} [] := ⟨listed_init, List.nodup_nil, by simp⟩

theorem map_data_ne (h : ∀ i ∈ l, (s.nodes i).id ≠ id) : ∀ e ∈ l.map s.data, e.1 ≠ id := by
  intro e he
  obtain ⟨i, hi, rfl⟩ := List.mem_map.mp he
  exact h i hi

theorem map_data_eq_false (h : ∀ i ∈ l, (s.nodes i).id ≠ id) :
    ∀ e ∈ l.map s.data, decide (e.1 = id) = false :=
  fun e he => decide_eq_false (map_data_ne h e he)

theorem Stored.data_ne (h : Stored s (l₁ ++ t :: l₂)) :
    (∀ i ∈ l₁, (s.nodes i).id ≠ (s.nodes t).id) ∧ ∀ i ∈ l₂, (s.nodes i).id ≠ (s.nodes t).id := by
  have hids := h.ids
  rw [List.map_map, List.map_append, List.map_cons, List.nodup_append] at hids
  obtain ⟨-, hbehind, hfront⟩ := hids
  refine ⟨fun i hi => ?_, fun i hi heq => ?_⟩
  · exact hfront _ (List.mem_map_of_mem hi) _ List.mem_cons_self
  · refine (List.nodup_cons.mp hbehind).1 ?_
    exact List.mem_map.mpr ⟨i, hi, heq⟩

/-- An identifier has no node, or the list is split at its node. -/
theorem Stored.split (h : Stored s l) (id : UInt32) :
    (∀ i ∈ l, (s.nodes i).id ≠ id) ∨
    ∃ l₁ t l₂, l = l₁ ++ t :: l₂ ∧ (s.nodes t).id = id ∧ (∀ i ∈ l₁, (s.nodes i).id ≠ id) ∧
      ∀ i ∈ l₂, (s.nodes i).id ≠ id := by
  by_cases hmem : ∃ t ∈ l, (s.nodes t).id = id
  · obtain ⟨t, ht, rfl⟩ := hmem
    obtain ⟨l₁, l₂, rfl⟩ := List.append_of_mem ht
    exact .inr ⟨l₁, t, l₂, rfl, rfl, h.data_ne⟩
  · exact .inl fun i hi heq => hmem ⟨i, hi, heq⟩

theorem Stored.remove (h : Stored s l) (hlisted : Listed s' l')
    (hdata : l'.map s'.data = Keyed.remove (fun k => k = id) (l.map s.data)) : Stored s' l' where
  toListed := hlisted
  ids := hdata ▸ Keyed.nodup_remove h.ids
  fits e he := h.fits e (Keyed.mem_remove.mp (hdata ▸ he)).1

theorem Stored.write (h : Stored s l) (hlisted : Listed s' l') (hvalue : value.length ≤ len)
    (hdata : l'.map s'.data = Keyed.write id (len, value) (l.map s.data)) : Stored s' l' where
  toListed := hlisted
  ids := hdata ▸ Keyed.nodup_write h.ids
  fits e he := by
    rcases Keyed.mem_write h.ids (hdata ▸ he) with rfl | ⟨he, -⟩
    · exact hvalue
    · exact h.fits e he

/-- A deletion removes the entry of an identifier. -/
theorem Stored.delete (h : Stored s l) (id : UInt32) :
    ∃ s' l', s.ngcStringParamDelete id = some s' ∧ Stored s' l' ∧ s'.refId = s.refId ∧
      l'.map s'.data = Keyed.remove (fun k => k = id) (l.map s.data) := by
  rcases h.split id with hall | ⟨l₁, t, l₂, rfl, rfl, hfront, hbehind⟩
  · have hdata : l.map s.data = Keyed.remove (fun k => k = id) (l.map s.data) :=
      (Keyed.remove_of_not_mem (map_data_eq_false hall)).symm
    exact ⟨s, l, h.toListed.delete_none hall, h, rfl, hdata⟩
  · obtain ⟨s', hdelete, hlisted, hkeep, href⟩ := h.toListed.delete rfl hfront
    have hdata : (l₁ ++ l₂).map s'.data =
        Keyed.remove (fun k => k = (s.nodes t).id) ((l₁ ++ t :: l₂).map s.data) := by
      rw [hkeep, List.map_append, List.map_append, List.map_cons]
      exact (Keyed.remove_append (p := fun k => k = (s.nodes t).id) (decide_eq_true rfl)
        (map_data_eq_false hfront) (map_data_eq_false hbehind)).symm
    exact ⟨s', l₁ ++ l₂, hdelete, h.remove hlisted hdata, href, hdata⟩

/-- A value is read at its identifier. -/
theorem Stored.get (h : Stored s l) (id : UInt32) :
    s.ngcStringParamGet id = some ((Keyed.read id (l.map s.data)).map Prod.snd) := by
  rw [StringParams.ngcStringParamGet]
  rcases h.split id with hall | ⟨l₁, t, l₂, rfl, rfl, hfront, -⟩
  · rcases h.scan_eq (fun sp => sp.id = id) with ⟨-, hscan⟩ | ⟨l₁, t, l₂, rfl, ht, -, -⟩
    · rw [hscan, Keyed.read_of_not_mem (map_data_ne hall)]
      rfl
    · exact absurd (of_decide_eq_true ht)
        (hall t (List.mem_append_right l₁ List.mem_cons_self))
  · have hmem : t ∈ l₁ ++ t :: l₂ := List.mem_append_right l₁ List.mem_cons_self
    have hscan := h.scan_of_split (p := fun sp => sp.id = (s.nodes t).id) (decide_eq_true rfl)
      fun i hi => decide_eq_false (hfront i hi)
    have hread : Keyed.read (s.nodes t).id ((l₁ ++ t :: l₂).map s.data) =
        some ((s.nodes t).len, (s.nodes t).value) :=
      Keyed.read_of_mem h.ids (List.mem_map_of_mem (f := s.data) hmem)
    rw [hscan, hread, Option.bind_some]
    simp only
    rw [h.node_eq hmem]
    rfl

/-- A value is copied to a node that has been placed for it. -/
theorem Listed.copied (h : Listed s' (l₁ ++ t :: l₂)) {v : Name} (ht : s'.data t = (id, len, v))
    (h₁ : l₁.map s'.data = l₁.map s.data) (h₂ : l₂.map s'.data = l₂.map s.data)
    (hvalue : value.length ≤ len) :
    ∃ s'', s'.strcpy t value = some s'' ∧ Listed s'' (l₁ ++ t :: l₂) ∧ s''.refId = s'.refId ∧
      (s''.nodes t).id = id ∧
      (l₁ ++ t :: l₂).map s''.data = l₁.map s.data ++ (id, len, value) :: l₂.map s.data := by
  obtain ⟨hid, hrest⟩ := Prod.mk.inj ht
  obtain ⟨s'', hcopy, hlisted, hdata, href⟩ := h.strcpy (Prod.mk.inj hrest).1 hvalue
  rw [h₁, h₂, hid] at hdata
  refine ⟨s'', hcopy, hlisted, href, ?_, hdata⟩
  rw [List.map_append, List.map_cons] at hdata
  have hcons := (List.append_inj hdata (by rw [List.length_map, List.length_map])).2
  exact congrArg Prod.fst (List.cons.inj hcons).1

/-- What `sp_set` does: the entry is written, or the one there was is removed. -/
inductive SpSet (s : StringParams) (l : List ℕ) (id : UInt32) (value : Name) (r : Realloc)
    (s' : StringParams) (l' : List ℕ) : Option ℕ → Prop
  | stored (t len : ℕ) (hmem : t ∈ l') (hid : (s'.nodes t).id = id) (hvalue : value.length ≤ 255)
      (hdata : l'.map s'.data = Keyed.write id (len, value) (l.map s.data)) :
      SpSet s l id value r s' l' (some t)
  | failed (h : value.length ≤ 255 → r = .failed)
      (hdata : l'.map s'.data = Keyed.remove (fun k => k = id) (l.map s.data)) :
      SpSet s l id value r s' l' none

/-- A value is set for an identifier that has a node. -/
theorem Stored.spSet_of_split (h : Stored s (l₁ ++ t :: l₂)) :
    ∃ sp s' l', s.spSet alloc (s.nodes t).id value r = some (sp, s') ∧ Stored s' l' ∧
      s'.refId = s.refId ∧ SpSet s (l₁ ++ t :: l₂) (s.nodes t).id value r s' l' sp := by
  obtain ⟨hfront, hbehind⟩ := h.data_ne
  have hmem : t ∈ l₁ ++ t :: l₂ := List.mem_append_right l₁ List.mem_cons_self
  have hscan := h.scan_of_split (p := fun sp => sp.id = (s.nodes t).id) (decide_eq_true rfl)
    fun i hi => decide_eq_false (hfront i hi)
  have hwrite : ∀ len, Keyed.write (s.nodes t).id (len, value) ((l₁ ++ t :: l₂).map s.data) =
      l₁.map s.data ++ ((s.nodes t).id, len, value) :: l₂.map s.data := by
    intro len
    rw [List.map_append, List.map_cons]
    exact Keyed.write_append (map_data_ne hfront)
  have hdiscard : ∃ s' l', s.discard (some t) = some s' ∧ Stored s' l' ∧ s'.refId = s.refId ∧
      l'.map s'.data =
        Keyed.remove (fun k => k = (s.nodes t).id) ((l₁ ++ t :: l₂).map s.data) := by
    rw [StringParams.discard, h.node_eq hmem]
    exact h.delete _
  obtain ⟨s₀, l₀, hdelete, hstored, href, hremove⟩ := hdiscard
  rw [StringParams.spSet, hscan, Option.bind_some]
  simp only
  by_cases hlen : value.length ≤ 255
  · rw [if_pos hlen, StringParams.grows, h.node_eq hmem, Option.map_some, Option.bind_some]
    by_cases hgrows : (s.nodes t).len < value.length
    · rw [if_pos (decide_eq_true hgrows)]
      cases r with
      | failed =>
        refine ⟨none, s₀, l₀, ?_, hstored, href, .failed (fun _ => rfl) hremove⟩
        exact congrArg (Option.map fun s => (none, s)) hdelete
      | inPlace =>
        obtain ⟨s₁, hplace, hlisted, ht, h₁, h₂, href₁⟩ :=
          h.toListed.place_same (s.nodes t).id value.length
        obtain ⟨s₂, hcopy, hlisted₂, href₂, hid, hdata⟩ := hlisted.copied ht h₁ h₂ le_rfl
        have hdata₂ := hdata.trans (hwrite value.length).symm
        refine ⟨some t, s₂, _, ?_, h.write hlisted₂ le_rfl hdata₂, href₂.trans href₁,
          .stored t value.length hmem hid hlen hdata₂⟩
        simp only [StringParams.realloc]
        rw [hplace, Option.bind_some, hcopy]
        rfl
      | moved =>
        obtain ⟨s₁, hplace, hlisted, ht, h₁, h₂, href₁⟩ :=
          h.toListed.place_moved (alloc.fresh s.allocated) (s.nodes t).id value.length
        obtain ⟨s₂, hcopy, hlisted₂, href₂, hid, hdata⟩ := hlisted.copied ht h₁ h₂ le_rfl
        have hdata₂ := hdata.trans (hwrite value.length).symm
        refine ⟨some _, s₂, _, ?_, h.write hlisted₂ le_rfl hdata₂, href₂.trans href₁,
          .stored _ value.length (List.mem_append_right l₁ List.mem_cons_self) hid hlen hdata₂⟩
        simp only [StringParams.realloc]
        rw [hplace, Option.bind_some, hcopy]
        rfl
    · rw [if_neg (fun heq => hgrows (of_decide_eq_true heq)), Option.bind_some]
      have hfits := Nat.le_of_not_lt hgrows
      obtain ⟨s₂, hcopy, hlisted₂, href₂, hid, hdata⟩ :=
        h.toListed.copied (v := (s.nodes t).value) rfl rfl rfl hfits
      have hdata₂ := hdata.trans (hwrite (s.nodes t).len).symm
      refine ⟨some t, s₂, _, ?_, h.write hlisted₂ hfits hdata₂, href₂,
        .stored t (s.nodes t).len hmem hid hlen hdata₂⟩
      rw [hcopy]
      rfl
  · rw [if_neg hlen]
    refine ⟨none, s₀, l₀, ?_, hstored, href, .failed (fun hle => absurd hle hlen) hremove⟩
    exact congrArg (Option.map fun s => (none, s)) hdelete

/-- A value is set for an identifier that has no node. -/
theorem Stored.spSet_of_absent (h : Stored s l) (hall : ∀ i ∈ l, (s.nodes i).id ≠ id) :
    ∃ sp s' l', s.spSet alloc id value r = some (sp, s') ∧ Stored s' l' ∧ s'.refId = s.refId ∧
      SpSet s l id value r s' l' sp := by
  have hscan : s.scan (fun sp => sp.id = id) = some (l.getLast?, none) := by
    rcases h.scan_eq (fun sp => sp.id = id) with ⟨-, hscan⟩ | ⟨l₁, t, l₂, rfl, ht, -, -⟩
    · exact hscan
    · exact absurd (of_decide_eq_true ht)
        (hall t (List.mem_append_right l₁ List.mem_cons_self))
  have hremove : l.map s.data = Keyed.remove (fun k => k = id) (l.map s.data) :=
    (Keyed.remove_of_not_mem (map_data_eq_false hall)).symm
  rw [StringParams.spSet, hscan, Option.bind_some]
  simp only
  by_cases hlen : value.length ≤ 255
  · rw [if_pos hlen, StringParams.grows, Option.bind_some, if_pos rfl]
    by_cases hfailed : r = .failed
    · subst hfailed
      exact ⟨none, s, l, rfl, h, rfl, .failed (fun _ => rfl) hremove⟩
    · have hnew : s.realloc alloc r none = (some (alloc.malloc s.allocated),
          { s with allocated := alloc.malloc s.allocated :: s.allocated }) := by
        cases r with
        | inPlace => rfl
        | moved => rfl
        | failed => exact absurd rfl hfailed
      obtain ⟨s₁, hplace, hlisted, ht, hl, href₁⟩ :=
        h.toListed.place_new (alloc.fresh s.allocated) id value.length
      have hnil : [].map s₁.data = [].map s.data := rfl
      obtain ⟨s₂, hcopy, hlisted₂, href₂, hid, hdata⟩ := hlisted.copied ht hl hnil le_rfl
      have hwrite : Keyed.write id (value.length, value) (l.map s.data) =
          l.map s.data ++ [(id, value.length, value)] :=
        Keyed.write_of_not_mem (map_data_ne hall)
      have hdata₂ := hdata.trans hwrite.symm
      refine ⟨some _, s₂, _, ?_, h.write hlisted₂ le_rfl hdata₂, href₂.trans href₁,
        .stored _ value.length (List.mem_append_right l List.mem_cons_self) hid hlen hdata₂⟩
      rw [hnew]
      simp only
      rw [hplace, Option.bind_some, hcopy]
      rfl
  · rw [if_neg hlen]
    exact ⟨none, s, l, rfl, h, rfl, .failed (fun hle => absurd hle hlen) hremove⟩

theorem Stored.spSet (h : Stored s l) (alloc : Allocator) (id : UInt32) (value : Name)
    (r : Realloc) :
    ∃ sp s' l', s.spSet alloc id value r = some (sp, s') ∧ Stored s' l' ∧ s'.refId = s.refId ∧
      SpSet s l id value r s' l' sp := by
  rcases h.split id with hall | ⟨l₁, t, l₂, rfl, rfl, -, -⟩
  · exact h.spSet_of_absent hall
  · exact h.spSet_of_split

/-- A node of a name is found, or no name is equal to it. -/
theorem Stored.getByName (h : Stored s l) (name : Name) :
    (∀ e ∈ l.map s.data, maxParamId < e.1 → e.2.2 ≠ name) ∧ s.spGetByName name = some none ∨
    ∃ t, s.spGetByName name = some (some t) ∧ t ∈ l ∧ maxParamId < (s.nodes t).id ∧
      (s.nodes t).value = name := by
  rw [StringParams.spGetByName]
  rcases h.scan_eq (fun sp => maxParamId < sp.id ∧ sp.value = name) with
    ⟨hall, hscan⟩ | ⟨l₁, t, l₂, rfl, ht, -, hscan⟩
  · left
    rw [hscan]
    refine ⟨fun e he hid hvalue => ?_, rfl⟩
    obtain ⟨i, hi, rfl⟩ := List.mem_map.mp he
    exact of_decide_eq_false (hall i hi) ⟨hid, hvalue⟩
  · right
    rw [hscan]
    obtain ⟨hid, hvalue⟩ := of_decide_eq_true ht
    exact ⟨t, rfl, List.mem_append_right l₁ List.mem_cons_self, hid, hvalue⟩

/-- The identifiers of names come from the counter, and no two of them have the same name. -/
structure Named (refId : UInt32) (entries : List (UInt32 × ℕ × Name)) : Prop where
  ne_zero : ∀ e ∈ entries, e.1 ≠ 0
  counted : ∀ e ∈ entries, maxParamId < e.1 → refId ≤ e.1
  nonempty : ∀ e ∈ entries, maxParamId < e.1 → e.2.2 ≠ []
  distinct : ∀ e ∈ entries, ∀ e' ∈ entries, maxParamId < e.1 → maxParamId < e'.1 →
    e.2.2 = e'.2.2 → e.1 = e'.1

section Named

variable {refId k : UInt32} {entries : List (UInt32 × ℕ × Name)}

theorem Named.remove (h : Named refId entries) (p : UInt32 → Bool) :
    Named refId (Keyed.remove p entries) where
  ne_zero e he := h.ne_zero e (Keyed.mem_remove.mp he).1
  counted e he := h.counted e (Keyed.mem_remove.mp he).1
  nonempty e he := h.nonempty e (Keyed.mem_remove.mp he).1
  distinct e he e' he' := h.distinct e (Keyed.mem_remove.mp he).1 e' (Keyed.mem_remove.mp he').1

/-- A user sets a value. -/
theorem Named.write (h : Named refId entries) (hkeys : (entries.map Prod.fst).Nodup) (h₀ : k ≠ 0)
    (hk : ¬ maxParamId < k) (v : ℕ × Name) : Named refId (Keyed.write k v entries) where
  ne_zero e he := by
    rcases Keyed.mem_write hkeys he with rfl | ⟨he, -⟩
    · exact h₀
    · exact h.ne_zero e he
  counted e he hid := by
    rcases Keyed.mem_write hkeys he with rfl | ⟨he, -⟩
    · exact absurd hid hk
    · exact h.counted e he hid
  nonempty e he hid := by
    rcases Keyed.mem_write hkeys he with rfl | ⟨he, -⟩
    · exact absurd hid hk
    · exact h.nonempty e he hid
  distinct e he e' he' hid hid' := by
    rcases Keyed.mem_write hkeys he with rfl | ⟨he, -⟩
    · exact absurd hid hk
    · rcases Keyed.mem_write hkeys he' with rfl | ⟨he', -⟩
      · exact absurd hid' hk
      · exact h.distinct e he e' he' hid hid'

/-- The counter is above the identifiers of the users when it is counted down. -/
theorem sub_one_spec (h : maxParamId.toNat + 1 < refId.toNat) :
    (refId - 1).toNat = refId.toNat - 1 ∧ maxParamId < refId - 1 ∧ refId - 1 < refId := by
  have hmax : maxParamId.toNat = 65535 := rfl
  have hone : (1 : UInt32) ≤ refId := UInt32.le_iff_toNat_le.mpr (by
    change 1 ≤ refId.toNat
    omega)
  have hsub : (refId - 1).toNat = refId.toNat - 1 := UInt32.toNat_sub_of_le refId 1 hone
  refine ⟨hsub, UInt32.lt_iff_toNat_lt.mpr ?_, UInt32.lt_iff_toNat_lt.mpr ?_⟩ <;> omega

theorem Named.lower (h : Named refId entries) (hk : k ≤ refId) : Named k entries where
  ne_zero := h.ne_zero
  counted e he hid := UInt32.le_trans hk (h.counted e he hid)
  nonempty := h.nonempty
  distinct := h.distinct

/-- A name gets an identifier that is below the others. -/
theorem Named.write_new (h : Named refId entries) (hkeys : (entries.map Prod.fst).Nodup)
    (hroom : maxParamId.toNat + 1 < refId.toNat) {v : ℕ × Name} (hv : v.2 ≠ [])
    (hnew : ∀ e ∈ entries, maxParamId < e.1 → e.2.2 ≠ v.2) :
    Named (refId - 1) (Keyed.write (refId - 1) v entries) := by
  obtain ⟨-, hmax, hlt⟩ := sub_one_spec hroom
  have hlower := h.lower (UInt32.le_of_lt hlt)
  constructor
  · intro e he
    rcases Keyed.mem_write hkeys he with rfl | ⟨he, -⟩
    · exact UInt32.pos_iff_ne_zero.mp (UInt32.lt_of_le_of_lt UInt32.zero_le hmax)
    · exact h.ne_zero e he
  · intro e he hid
    rcases Keyed.mem_write hkeys he with rfl | ⟨he, -⟩
    · exact UInt32.le_refl _
    · exact hlower.counted e he hid
  · intro e he hid
    rcases Keyed.mem_write hkeys he with rfl | ⟨he, -⟩
    · exact hv
    · exact h.nonempty e he hid
  · intro e he e' he' hid hid' heq
    rcases Keyed.mem_write hkeys he with rfl | ⟨he, -⟩
    · rcases Keyed.mem_write hkeys he' with rfl | ⟨he', -⟩
      · rfl
      · exact absurd heq.symm (hnew e' he' hid')
    · rcases Keyed.mem_write hkeys he' with rfl | ⟨he', -⟩
      · exact absurd heq (hnew e he hid)
      · exact h.distinct e he e' he' hid hid' heq

end Named

/-- What has been set for the identifiers. -/
abbrev Strings := UInt32 → Option Name

/-- A value that has been set is remembered until the next call for its identifier. -/
def StringOp.remember (m : Strings) : StringOp → StringAnswer → Strings
  | .set id value _, .stored true => Function.update m id.toUInt32 (some value)
  | .set id _ _, .stored false => if 0 < id then Function.update m id.toUInt32 none else m
  | .setName name _, .named id => if id = 0 then m else Function.update m id (some name)
  | .delete id, _ => Function.update m id none
  | _, _ => m

/-- What a call has to return. -/
def StringOp.Answered (m : Strings) : StringOp → StringAnswer → Prop
  | .set id value r, .stored ok =>
    (ok = true → 0 < id ∧ value.length ≤ 255) ∧
      (0 < id → value.length ≤ 255 → r ≠ .failed → ok = true)
  | .setName name r, .named id =>
    (∀ k, maxParamId < k → m k = some name → id = k) ∧
      (∀ k other, m k = some other → other ≠ name → id ≠ k) ∧
      (id ≠ 0 → maxParamId < id) ∧
      (name ≠ [] → name.length ≤ 255 → r ≠ .failed → id ≠ 0)
  | .delete _, .deleted => True
  | _, _ => False

/-- An identifier is asked for a name. -/
def StringOp.names : StringOp → Bool
  | .setName _ _ => true
  | _ => false

/-- A call, with what is remembered. -/
def StringOp.step (alloc : Allocator) (c : Strings × StringParams) (op : StringOp) :
    Option (Strings × StringParams) :=
  (op.exec alloc c.2).map fun x => (op.remember c.1 x.1, x.2)

/-- The calls, from a store without values. -/
def runStrings (alloc : Allocator) (ops : List StringOp) : Option (Strings × StringParams) :=
  ops.foldlM (StringOp.step alloc) (fun _ => none, {})

/-- What is remembered is what is in the store. -/
structure Kept (m : Strings) (s : StringParams) (l : List ℕ) : Prop extends Stored s l where
  named : Named s.refId (l.map s.data)
  values : ∀ id, m id = (Keyed.read id (l.map s.data)).map Prod.snd

variable {m : Strings}

theorem kept_init : Kept (fun _ => none) {} [] where
  toStored := stored_init
  named := ⟨by simp, by simp, by simp, by simp⟩
  values _ := rfl

theorem Kept.update_none (h : Kept m s l)
    (hdata : l'.map s'.data = Keyed.remove (fun k => k = id) (l.map s.data)) (k : UInt32) :
    Function.update m id none k = (Keyed.read k (l'.map s'.data)).map Prod.snd := by
  rw [hdata]
  by_cases hk : k = id
  · rw [hk, Function.update_self,
      Keyed.read_remove_of_pos (p := fun k => k = id) (decide_eq_true rfl)]
    rfl
  · rw [Function.update_of_ne hk,
      Keyed.read_remove_of_neg (p := fun k => k = id) (decide_eq_false hk)]
    exact h.values k

theorem Kept.update_some (h : Kept m s l)
    (hdata : l'.map s'.data = Keyed.write id (len, value) (l.map s.data)) (k : UInt32) :
    Function.update m id (some value) k = (Keyed.read k (l'.map s'.data)).map Prod.snd := by
  rw [hdata]
  by_cases hk : k = id
  · rw [hk, Function.update_self, Keyed.read_write_self]
    rfl
  · rw [Function.update_of_ne hk, Keyed.read_write_of_ne hk]
    exact h.values k

theorem Kept.delete (h : Kept m s l) (id : UInt32) :
    ∃ s' l', s.ngcStringParamDelete id = some s' ∧ Kept (Function.update m id none) s' l' ∧
      s'.refId = s.refId := by
  obtain ⟨s', l', hdelete, hstored, href, hdata⟩ := h.toStored.delete id
  refine ⟨s', l', hdelete, ⟨hstored, ?_, h.update_none hdata⟩, href⟩
  rw [hdata, href]
  exact h.named.remove _

/-- An entry is what is remembered of its identifier. -/
theorem Kept.mem (h : Kept m s l) {e : UInt32 × ℕ × Name} (he : e ∈ l.map s.data) :
    m e.1 = some e.2.2 := by
  rw [h.values, Keyed.read_of_mem h.ids (k := e.1) (v := e.2) he]
  rfl

theorem Kept.exists_entry (h : Kept m s l) (hid : m id = some value) :
    ∃ len, (id, len, value) ∈ l.map s.data := by
  rw [h.values] at hid
  obtain ⟨v, hread, rfl⟩ := Option.map_eq_some_iff.mp hid
  exact ⟨v.1, Keyed.mem_of_read hread⟩

theorem not_maxParamId_lt (id : UInt16) : ¬ maxParamId < id.toUInt32 := by
  rw [UInt32.lt_iff_toNat_lt]
  have hid := id.toNat_lt
  have hmax : maxParamId.toNat = 65535 := rfl
  rw [UInt16.toNat_toUInt32]
  omega

/-- A user sets a value. -/
theorem Kept.set (h : Kept m s l) (alloc : Allocator) (id : UInt16) (value : Name) (r : Realloc) :
    ∃ ok s' l', s.ngcStringParamSet alloc id value r = some (ok, s') ∧ s'.refId = s.refId ∧
      (StringOp.set id value r).Answered m (.stored ok) ∧
      Kept ((StringOp.set id value r).remember m (.stored ok)) s' l' := by
  rw [StringParams.ngcStringParamSet]
  by_cases hid : 0 < id
  · rw [if_pos hid]
    obtain ⟨sp, s', l', hset, hstored, href, hcases⟩ := h.spSet alloc id.toUInt32 value r
    rw [hset]
    refine ⟨sp.isSome, s', l', rfl, href, ?_⟩
    cases hcases with
    | stored t len hmem ht hvalue hdata =>
      refine ⟨⟨fun _ => ⟨hid, hvalue⟩, fun _ _ _ => rfl⟩, hstored, ?_, h.update_some hdata⟩
      have h₀ : id.toUInt32 ≠ 0 := fun heq => by
        have hnat := congrArg UInt32.toNat heq
        rw [UInt16.toNat_toUInt32] at hnat
        have hpos := UInt16.lt_iff_toNat_lt.mp hid
        change 0 < id.toNat at hpos
        exact hpos.ne' hnat
      rw [hdata, href]
      exact h.named.write h.ids h₀ (not_maxParamId_lt id) _
    | failed hfail hdata =>
      refine ⟨⟨fun hok => ?_, fun _ hvalue hr => absurd (hfail hvalue) hr⟩, hstored, ?_, ?_⟩
      · cases hok
      · rw [hdata, href]
        exact h.named.remove _
      · simp only [Option.isSome_none, StringOp.remember]
        rw [if_pos hid]
        exact h.update_none hdata
  · rw [if_neg hid]
    refine ⟨false, s, l, rfl, rfl, ⟨fun hok => ?_, fun hpos => absurd hpos hid⟩, ?_⟩
    · cases hok
    · simp only [StringOp.remember]
      rw [if_neg hid]
      exact h

theorem Kept.not_name (h : Kept m s l)
    (hnew : ∀ e ∈ l.map s.data, maxParamId < e.1 → e.2.2 ≠ name) {k : UInt32}
    (hk : maxParamId < k) : m k ≠ some name := by
  intro heq
  obtain ⟨len, hmem⟩ := h.exists_entry heq
  exact hnew _ hmem hk rfl

theorem Kept.ne_zero (h : Kept m s l) {k : UInt32} (hk : m k = some name) : 0 ≠ k := by
  intro heq
  obtain ⟨len, hmem⟩ := h.exists_entry hk
  exact h.named.ne_zero _ hmem heq.symm

/-- The counter of the next name is not in use. -/
theorem Kept.fresh (h : Kept m s l) (hroom : maxParamId.toNat + 1 < s.refId.toNat) :
    ∀ e ∈ l.map s.data, e.1 ≠ s.refId - 1 := by
  obtain ⟨-, hmax, hlt⟩ := sub_one_spec hroom
  intro e he heq
  have hle := h.named.counted e he (heq ▸ hmax)
  rw [heq] at hle
  exact UInt32.not_le.mpr hlt hle

/-- A new name gets the next identifier, if there is memory for it. -/
theorem Kept.setName_new (h : Kept m s l) (hroom : maxParamId.toNat + 1 < s.refId.toNat)
    (hname : name ≠ []) (hnew : ∀ e ∈ l.map s.data, maxParamId < e.1 → e.2.2 ≠ name)
    (hfind : s.spGetByName name = some none) :
    ∃ id s' l', s.ngcStringParamSetName alloc name r = some (id, s') ∧
      s.refId.toNat ≤ s'.refId.toNat + 1 ∧ (StringOp.setName name r).Answered m (.named id) ∧
      Kept ((StringOp.setName name r).remember m (.named id)) s' l' := by
  obtain ⟨hsub, hmax, hlt⟩ := sub_one_spec hroom
  have hlower : Stored { s with refId := s.refId - 1 } l :=
    ⟨h.toListed.congr (fun _ _ => rfl) rfl rfl, h.ids, h.fits⟩
  have hfresh := h.fresh hroom
  obtain ⟨sp, s', l', hset, hstored, href, hcases⟩ := hlower.spSet alloc (s.refId - 1) name r
  have hcount : s.refId.toNat ≤ s'.refId.toNat + 1 := by
    rw [href]
    change s.refId.toNat ≤ (s.refId - 1).toNat + 1
    omega
  rw [StringParams.ngcStringParamSetName, if_neg hname, hfind, Option.bind_some]
  simp only
  rw [hset, Option.bind_some]
  cases hcases with
  | stored t len hmem ht hlen hdata =>
    have hne : s.refId - 1 ≠ 0 :=
      UInt32.pos_iff_ne_zero.mp (UInt32.lt_of_le_of_lt UInt32.zero_le hmax)
    refine ⟨s.refId - 1, s', l', ?_, hcount, ⟨?_, ?_, fun _ => hmax, fun _ _ _ => hne⟩, ?_⟩
    · simp only
      rw [hstored.node_eq hmem, Option.map_some, ht]
    · exact fun k hk heq => absurd heq (h.not_name hnew hk)
    · rintro k other hk - rfl
      obtain ⟨len, hmem⟩ := h.exists_entry hk
      exact hfresh _ hmem rfl
    · simp only [StringOp.remember]
      rw [if_neg hne]
      refine ⟨hstored, ?_, h.update_some hdata⟩
      rw [hdata, href]
      exact h.named.write_new h.ids hroom hname hnew
  | failed hfail hdata =>
    have hsame : l'.map s'.data = l.map s.data :=
      hdata.trans (Keyed.remove_of_not_mem fun e he => decide_eq_false (hfresh e he))
    refine ⟨0, s', l', rfl, hcount, ⟨?_, ?_, ?_, ?_⟩, ?_⟩
    · exact fun k hk heq => absurd heq (h.not_name hnew hk)
    · exact fun k other hk _ => h.ne_zero hk
    · exact fun hne => absurd rfl hne
    · exact fun _ hlen hr => absurd (hfail hlen) hr
    · refine ⟨hstored, ?_, ?_⟩
      · rw [hsame, href]
        exact h.named.lower (UInt32.le_of_lt hlt)
      · rw [hsame]
        exact h.values

/-- An identifier is asked for a name. -/
theorem Kept.setName (h : Kept m s l) (hroom : maxParamId.toNat + 1 < s.refId.toNat)
    (alloc : Allocator) (name : Name) (r : Realloc) :
    ∃ id s' l', s.ngcStringParamSetName alloc name r = some (id, s') ∧
      s.refId.toNat ≤ s'.refId.toNat + 1 ∧ (StringOp.setName name r).Answered m (.named id) ∧
      Kept ((StringOp.setName name r).remember m (.named id)) s' l' := by
  by_cases hname : name = []
  · subst hname
    rw [StringParams.ngcStringParamSetName, if_pos rfl]
    refine ⟨0, s, l, rfl, Nat.le_succ _, ⟨?_, ?_, ?_, ?_⟩, h⟩
    · exact fun k hk heq => absurd heq (h.not_name h.named.nonempty hk)
    · exact fun k other hk _ => h.ne_zero hk
    · exact fun hne => absurd rfl hne
    · exact fun hne => absurd rfl hne
  rcases h.getByName name with ⟨hnew, hfind⟩ | ⟨t, hfind, hmem, hid, hvalue⟩
  · exact h.setName_new hroom hname hnew hfind
  · rw [StringParams.ngcStringParamSetName, if_neg hname, hfind, Option.bind_some]
    simp only
    rw [h.node_eq hmem]
    have hentry := List.mem_map_of_mem (f := s.data) hmem
    have hlive : m (s.nodes t).id = some name := hvalue ▸ h.mem hentry
    have hne : (s.nodes t).id ≠ 0 := h.named.ne_zero _ hentry
    refine ⟨(s.nodes t).id, s, l, rfl, Nat.le_succ _, ⟨?_, ?_, fun _ => hid, fun _ _ _ => hne⟩, ?_⟩
    · intro k hk heq
      obtain ⟨len, hmem'⟩ := h.exists_entry heq
      exact h.named.distinct _ hentry _ hmem' hid hk hvalue
    · rintro k other hk hother rfl
      exact hother (Option.some.inj (hk.symm.trans hlive))
    · simp only [StringOp.remember]
      rw [if_neg hne, ← hlive, Function.update_eq_self]
      exact h

/-- A call answers as it has to, and what is remembered stays in the store. -/
theorem Kept.exec (h : Kept m s l) (alloc : Allocator) (op : StringOp)
    (hroom : op.names = true → maxParamId.toNat + 1 < s.refId.toNat) :
    ∃ answer s' l', op.exec alloc s = some (answer, s') ∧ op.Answered m answer ∧
      Kept (op.remember m answer) s' l' ∧
      s.refId.toNat ≤ s'.refId.toNat + [op].countP StringOp.names := by
  cases op with
  | set id value r =>
    obtain ⟨ok, s', l', hset, href, hanswer, hkept⟩ := h.set alloc id value r
    refine ⟨.stored ok, s', l', ?_, hanswer, hkept, ?_⟩
    · rw [StringOp.exec, hset]
      rfl
    · rw [href]
      exact Nat.le_add_right _ _
  | setName name r =>
    obtain ⟨id, s', l', hset, hcount, hanswer, hkept⟩ := h.setName (hroom rfl) alloc name r
    refine ⟨.named id, s', l', ?_, hanswer, hkept, hcount⟩
    rw [StringOp.exec, hset]
    rfl
  | delete id =>
    obtain ⟨s', l', hdelete, hkept, href⟩ := h.delete id
    refine ⟨.deleted, s', l', ?_, trivial, hkept, ?_⟩
    · rw [StringOp.exec, hdelete]
      rfl
    · rw [href]
      exact Nat.le_add_right _ _

/-- The counter stays above the identifiers of the users for this many names. -/
def maxNames : ℕ := 4294901759

/-- A run keeps what is remembered. -/
theorem runStrings_kept (alloc : Allocator) (ops : List StringOp)
    (hops : ops.countP StringOp.names ≤ maxNames) :
    ∃ m s l, runStrings alloc ops = some (m, s) ∧ Kept m s l ∧
      4294967295 ≤ s.refId.toNat + ops.countP StringOp.names := by
  induction ops using List.reverseRecOn with
  | nil => exact ⟨_, _, [], rfl, kept_init, le_rfl⟩
  | append_singleton ops op ih =>
    rw [List.countP_append] at hops ⊢
    obtain ⟨m, s, l, hrun, hkept, hcount⟩ := ih (by omega)
    have hroom : op.names = true → maxParamId.toNat + 1 < s.refId.toNat := by
      intro hop
      have hone : [op].countP StringOp.names = 1 := List.countP_singleton.trans (if_pos hop)
      have hmax : maxParamId.toNat = 65535 := rfl
      rw [maxNames] at hops
      omega
    obtain ⟨answer, s', l', hexec, -, hkept', hcount'⟩ := hkept.exec alloc op hroom
    refine ⟨_, s', l', ?_, hkept', by omega⟩
    rw [runStrings, List.foldlM_append]
    rw [runStrings] at hrun
    rw [hrun]
    simp only [Option.bind_eq_bind, Option.bind_some, List.foldlM_cons, List.foldlM_nil,
      StringOp.step, hexec, Option.map_some]
    rfl

/-- What is read is what has been set last, the nodes stay in a list without cycles, and names have
identifiers of their own. -/
theorem runStrings_keeps (alloc : Allocator) (ops : List StringOp)
    (hops : ops.countP StringOp.names ≤ maxNames) :
    ∃ m s, runStrings alloc ops = some (m, s) ∧ (∃ l, Listed s l) ∧
      (∀ id, s.ngcStringParamGet id = some (m id)) ∧
      ∀ op, (ops ++ [op]).countP StringOp.names ≤ maxNames →
        ∃ answer s', op.exec alloc s = some (answer, s') ∧ op.Answered m answer := by
  obtain ⟨m, s, l, hrun, hkept, hcount⟩ := runStrings_kept alloc ops hops
  refine ⟨m, s, hrun, ⟨l, hkept.toListed⟩, fun id => ?_, fun op hop => ?_⟩
  · rw [hkept.get, hkept.values]
  · have hroom : op.names = true → maxParamId.toNat + 1 < s.refId.toNat := by
      intro hname
      have hone : [op].countP StringOp.names = 1 := List.countP_singleton.trans (if_pos hname)
      have hmax : maxParamId.toNat = 65535 := rfl
      rw [List.countP_append, maxNames] at hop
      omega
    obtain ⟨answer, s', l', hexec, hanswer, -, -⟩ := hkept.exec alloc op hroom
    exact ⟨answer, s', hexec, hanswer⟩

theorem runStrings_keeps_moved :
    ∃ m s, runStrings Streams.firstFit
        [.set 5 [120] .inPlace, .setName [98] .inPlace, .set 5 [120, 121] .moved] = some (m, s) ∧
      (∃ l, Listed s l) ∧ (∀ id, s.ngcStringParamGet id = some (m id)) ∧
      ∀ op, (([.set 5 [120] .inPlace, .setName [98] .inPlace, .set 5 [120, 121] .moved] :
          List StringOp) ++ [op]).countP StringOp.names ≤ maxNames →
        ∃ answer s', op.exec Streams.firstFit s = some (answer, s') ∧ op.Answered m answer :=
  runStrings_keeps Streams.firstFit
    [.set 5 [120] .inPlace, .setName [98] .inPlace, .set 5 [120, 121] .moved] (by decide)

/-- One value is set, for an identifier of a user. -/
structure OneString (s : StringParams) (refId : UInt32) : Prop where
  head : s.head = some 1
  allocated : s.allocated = [1]
  node : s.nodes 1 = { id := 5, len := 1, value := [120] }
  refId : s.refId = refId

theorem OneString.node_eq {refId : UInt32} (h : OneString s refId) :
    s.node 1 = some { id := 5, len := 1, value := [120] } := by
  rw [StringParams.node, h.allocated, h.node]
  rfl

theorem OneString.scan_eq {refId : UInt32} (h : OneString s refId) (p : StringParam → Bool) :
    s.scan p = if p { id := 5, len := 1, value := [120] } then some (none, some 1)
      else some (some 1, none) := by
  rw [StringParams.scan, h.head, StringParams.bound, h.allocated]
  change Linked.scan s.node StringParam.next (fun _ => p) 2 none (some 1) = _
  rw [Linked.scan, h.node_eq, Option.bind_some]
  rfl

theorem OneString.getByName {refId : UInt32} (h : OneString s refId) (name : Name) :
    s.spGetByName name = some none := by
  rw [StringParams.spGetByName, h.scan_eq]
  rfl

/-- There is no memory for a name, and the counter goes on. -/
theorem OneString.setName_failed {c : UInt32} (h : OneString s c) (alloc : Allocator)
    (hc : c - 1 ≠ 5) :
    ∃ s', s.ngcStringParamSetName alloc [98] .failed = some (0, s') ∧ OneString s' (c - 1) := by
  have hlower : OneString { s with refId := s.refId - 1 } (c - 1) :=
    ⟨h.head, h.allocated, h.node, congrArg (fun c => c - 1) h.refId⟩
  refine ⟨_, ?_, hlower⟩
  have hid : ¬ decide ((5 : UInt32) = s.refId - 1) = true := by
    rw [h.refId, decide_eq_true_iff]
    exact hc.symm
  rw [StringParams.ngcStringParamSetName, if_neg (List.cons_ne_nil 98 []), h.getByName,
    Option.bind_some]
  simp only
  rw [StringParams.spSet, hlower.scan_eq]
  simp only
  rw [if_neg hid, Option.bind_some]
  rfl

/-- The names that have failed leave their trace in the counter. -/
theorem OneString.run_failed {c : UInt32} (h : OneString s c) (alloc : Allocator) (m : Strings)
    (n : ℕ) (hn : n + 5 < c.toNat) :
    ∃ s', (List.replicate n (StringOp.setName [98] .failed)).foldlM (StringOp.step alloc) (m, s) =
        some (m, s') ∧ ∃ c', c'.toNat + n = c.toNat ∧ OneString s' c' := by
  induction n generalizing s c with
  | zero => exact ⟨s, rfl, c, rfl, h⟩
  | succ n ih =>
    have hone : (1 : UInt32) ≤ c := UInt32.le_iff_toNat_le.mpr (by
      change 1 ≤ c.toNat
      omega)
    have hsub : (c - 1).toNat = c.toNat - 1 := UInt32.toNat_sub_of_le c 1 hone
    have hne : c - 1 ≠ 5 := by
      intro heq
      have hnat := congrArg UInt32.toNat heq
      change (c - 1).toNat = 5 at hnat
      omega
    obtain ⟨s₁, hfail, h₁⟩ := h.setName_failed alloc hne
    obtain ⟨s₂, hrun, c', hc', h₂⟩ := ih h₁ (by omega)
    refine ⟨s₂, ?_, c', by omega, h₂⟩
    have hstep : (StringOp.setName [98] .failed).step alloc (m, s) = some (m, s₁) := by
      rw [StringOp.step, StringOp.exec, hfail]
      rfl
    rw [List.replicate_succ, List.foldlM_cons, hstep]
    exact hrun

/-- The counter reaches the identifier of the user. -/
theorem OneString.setName_taken (h : OneString s 6) (alloc : Allocator) :
    ∃ s', (StringOp.setName [98] .inPlace).exec alloc s = some (.named 5, s') := by
  have hlower : OneString { s with refId := s.refId - 1 } 5 :=
    ⟨h.head, h.allocated, h.node, by rw [h.refId]; rfl⟩
  have hid : decide ((5 : UInt32) = s.refId - 1) = true := by
    rw [h.refId]
    rfl
  rw [StringOp.exec, StringParams.ngcStringParamSetName, if_neg (List.cons_ne_nil 98 []),
    h.getByName, Option.bind_some]
  simp only
  rw [StringParams.spSet, hlower.scan_eq]
  simp only
  rw [if_pos hid, Option.bind_some]
  simp only
  have hfits : ([98] : Name).length ≤ 255 := by decide
  have hshort : ¬ decide (({ id := 5, len := 1, value := [120] } : StringParam).len <
      ([98] : Name).length) = true := by decide
  obtain ⟨s', hcopy, hnode⟩ : ∃ s', ({ s with refId := s.refId - 1 } : StringParams).strcpy 1 [98] =
      some s' ∧ s'.node 1 = some { id := 5, len := 1, value := [98] } := by
    rw [StringParams.strcpy, hlower.node_eq, Option.bind_some,
      StringParams.setNode_eq (hlower.allocated ▸ List.mem_singleton_self 1)]
    refine ⟨_, rfl, ?_⟩
    rw [StringParams.node_eq (s := StringParams.put _ _ _)
      (hlower.allocated ▸ List.mem_singleton_self 1), StringParams.nodes_put_self]
  rw [if_pos hfits, StringParams.grows, hlower.node_eq, Option.map_some, Option.bind_some,
    if_neg hshort, Option.bind_some, hcopy, Option.map_some, Option.bind_some]
  simp only
  rw [hnode]
  exact ⟨s', rfl⟩

theorem not_runStrings_keeps :
    ¬ ∀ (alloc : Allocator) (ops : List StringOp),
      ∃ m s, runStrings alloc ops = some (m, s) ∧ (∃ l, Listed s l) ∧
        (∀ id, s.ngcStringParamGet id = some (m id)) ∧
        ∀ op : StringOp, ∃ answer s', op.exec alloc s = some (answer, s') ∧
          op.Answered m answer := by
  intro h
  let m₁ : Strings := Function.update (fun _ => none) 5 (some [120])
  obtain ⟨s₁, hset, h₁⟩ : ∃ s₁, (StringOp.set 5 [120] .inPlace).step Streams.firstFit
      (fun _ => none, {}) = some (m₁, s₁) ∧ OneString s₁ 4294967295 :=
    ⟨_, rfl, rfl, rfl, rfl, rfl⟩
  obtain ⟨s₂, hrun, c, hc, h₂⟩ :=
    h₁.run_failed Streams.firstFit m₁ 4294967289 (by decide)
  have hsix : c = 6 := by
    refine UInt32.toNat_inj.mp ?_
    have hmax : (4294967295 : UInt32).toNat = 4294967295 := rfl
    have hnat : (6 : UInt32).toNat = 6 := rfl
    omega
  subst hsix
  obtain ⟨m, s, hruns, -, -, hall⟩ := h Streams.firstFit
    (.set 5 [120] .inPlace :: List.replicate 4294967289 (.setName [98] .failed))
  rw [runStrings, List.foldlM_cons, hset] at hruns
  have heq : (m₁, s₂) = (m, s) := Option.some.inj (hrun.symm.trans hruns)
  obtain ⟨rfl, rfl⟩ := Prod.mk.inj heq
  obtain ⟨s₃, hexec⟩ := h₂.setName_taken Streams.firstFit
  obtain ⟨answer, s', hanswer, hright⟩ := hall (.setName [98] .inPlace)
  obtain ⟨rfl, -⟩ := Prod.mk.inj (Option.some.inj (hexec.symm.trans hanswer))
  obtain ⟨-, hdiffer, -⟩ := hright
  exact hdiffer 5 [120] (Function.update_self _ _ _) (by decide) rfl

end Ngc

end Inspector
