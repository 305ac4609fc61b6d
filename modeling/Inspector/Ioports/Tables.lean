import Inspector.Ioports.Layout

/-! # The registered tables

Each physical port is in one of the registered tables, so the walks over the tables find the pin of
a port that is registered and nothing for other numbers.
-/

namespace Inspector

namespace Ioports

variable {ports : List PortsList} {t : PortType} {d : Direction} {pins : List Xbar} {p : ℕ}

/-- The table is the only one for the port, and it has this pin for it. -/
def Serves (ports : List PortsList) (t : PortType) (d : Direction) (p : ℕ) (pin : Xbar)
    (io : PortsList) : Prop :=
  ports.filter (·.isMatch t d p) = [io] ∧ io.getPinInfo d (p - (io.portsId d).nStart) = some pin ∧
    pin.id + (io.portsId d).nStart = p

/-- The tables hold these pins, in the order of the physical ports. -/
def Provided (ports : List PortsList) (t : PortType) (d : Direction) (pins : List Xbar) : Prop :=
  ∀ p, match pins[p]? with
    | none => ports.filter (·.isMatch t d p) = []
    | some pin => ∃ io, Serves ports t d p pin io

theorem Provided.of_some (h : Provided ports t d pins) {pin : Xbar} (hp : pins[p]? = some pin) :
    ∃ io, Serves ports t d p pin io := by
  have hserves := h p
  rwa [hp] at hserves

theorem Provided.of_none (h : Provided ports t d pins) (hp : pins[p]? = none) :
    ports.filter (·.isMatch t d p) = [] := by
  have hserves := h p
  rwa [hp] at hserves

theorem Provided.ne_nil (h : Provided ports t d pins) (hp : p < pins.length) : ports ≠ [] := by
  obtain ⟨io, hfilter, -⟩ := h.of_some (List.getElem?_eq_getElem hp)
  rintro rfl
  cases hfilter

theorem Provided.nil : Provided [] t d [] := fun _ => rfl

theorem findSome?_filter {α β : Type*} {f : α → Option β} {q : α → Bool} (l : List α)
    (h : ∀ a, q a = false → f a = none) : l.findSome? f = (l.filter q).findSome? f := by
  induction l with
  | nil => rfl
  | cons a l ih =>
    cases ha : q a with
    | true => rw [List.filter_cons_of_pos ha, List.findSome?_cons, List.findSome?_cons, ih]
    | false => rw [List.filter_cons_of_neg (by simp [ha]), List.findSome?_cons, h a ha, ih]

theorem claimLoop_filter (cfg : Private) (ports : List PortsList) (ok : Bool) :
    cfg.claimLoop t d p ports ok = cfg.claimLoop t d p (ports.filter (·.isMatch t d p)) ok := by
  induction ports generalizing ok with
  | nil => rfl
  | cons io rest ih =>
    cases hio : io.isMatch t d p with
    | false =>
      rw [List.filter_cons_of_neg (by simp [hio]), Private.claimLoop, if_neg (by simp [hio]), ih]
    | true =>
      rw [List.filter_cons, if_pos hio, Private.claimLoop, if_pos hio, Private.claimLoop, if_pos hio,
        ih true, ih false]

/-- A pin as `io_get_pin_info` gives it out. -/
def Xbar.seen (pin : Xbar) (t : PortType) (d : Direction) (mask : BitVec 32) (p : ℕ) : Xbar :=
  { pin with
    claimable := isAux t d pin.function
    claimed := decide (p = 0) && mask.getLsbD 0 }

theorem Provided.findSome?_pinInfo (h : Provided ports t d pins) (cfg : Private) (p : ℕ) :
    ports.findSome? (cfg.pinInfo t d p) = pins[p]?.map (·.seen t d cfg.claimed p) := by
  have hnone : ∀ io : PortsList, io.isMatch t d p = false → cfg.pinInfo t d p io = none := by
    intro io hio
    simp [Private.pinInfo, hio]
  rw [findSome?_filter ports hnone]
  cases hp : pins[p]? with
  | none =>
    rw [h.of_none hp]
    rfl
  | some pin =>
    obtain ⟨io, hfilter, hget, hid⟩ := h.of_some hp
    have hio : io.isMatch t d p = true := by
      have hmem : io ∈ ports.filter (·.isMatch t d p) := by simp [hfilter]
      exact (List.mem_filter.mp hmem).2
    rw [hfilter, List.findSome?_singleton, Private.pinInfo, if_pos hio, hget, Option.map_some, hid,
      lowest_of_bit]
    rfl

theorem Provided.claimLoop_none (h : Provided ports t d pins) (cfg : Private)
    (hp : pins[p]? = none) : cfg.claimLoop t d p ports false = some (false, cfg, p) := by
  rw [claimLoop_filter, h.of_none hp]
  rfl

theorem Provided.claimLoop_some (h : Provided ports t d pins) (cfg : Private) {pin : Xbar}
    (hp : pins[p]? = some pin) (hclaimable : pin.claimable = true) :
    cfg.claimLoop t d p ports false = (cfg.claim p).map (true, ·) := by
  obtain ⟨io, hfilter, hget, -⟩ := h.of_some hp
  have hio : io.isMatch t d p = true := by
    have hmem : io ∈ ports.filter (·.isMatch t d p) := by simp [hfilter]
    exact (List.mem_filter.mp hmem).2
  rw [claimLoop_filter, hfilter, Private.claimLoop, if_pos hio, hget]
  exact if_pos hclaimable

/-- The pins of a table. -/
def tablePins (n : ℕ) (pins : ℕ → Pin) : List Xbar := (List.range n).map fun i => (pins i).xbar i

/-- A table that is registered serves the next physical ports, in its type. -/
theorem Provided.add (h : Provided ports t d pins) {io : PortsList} {n : ℕ} (ht : io.type = t)
    (hio : io.portsId d = if n ≠ 0 then ⟨n, pins.length, pins.length + n - 1⟩ else ⟨0, 255, 0⟩) :
    Provided (ports ++ [io]) t d (pins ++ tablePins n (io.pins d)) := by
  have hmatch : ∀ p, io.isMatch t d p = decide (pins.length ≤ p ∧ p < pins.length + n) := by
    intro p
    rw [PortsList.isMatch, hio, decide_eq_decide]
    by_cases hn : n = 0
    · subst hn
      simp only [ne_eq, not_true_eq_false, if_false]
      omega
    · simp only [ne_eq, hn, not_false_eq_true, if_true, ht, true_and]
      omega
  intro p
  rcases Nat.lt_or_ge p pins.length with hlt | hge
  · have hnot : io.isMatch t d p = false := by
      rw [hmatch]
      exact decide_eq_false (by omega)
    rw [List.getElem?_append_left hlt, List.getElem?_eq_getElem hlt]
    obtain ⟨io', hfilter, hrest⟩ := h.of_some (List.getElem?_eq_getElem hlt)
    refine ⟨io', ?_, hrest⟩
    rw [List.filter_append, hfilter, List.filter_cons_of_neg (by simp [hnot])]
    rfl
  · have hnone := h.of_none (List.getElem?_eq_none hge)
    rw [List.getElem?_append_right hge]
    rcases Nat.lt_or_ge p (pins.length + n) with hlt | hge'
    · have hio' : io.isMatch t d p = true := by
        rw [hmatch]
        exact decide_eq_true ⟨hge, hlt⟩
      have hn : n ≠ 0 := by omega
      have hget : (tablePins n (io.pins d))[p - pins.length]? =
          some ((io.pins d (p - pins.length)).xbar (p - pins.length)) := by
        rw [tablePins, List.getElem?_map, List.getElem?_range (by omega)]
        rfl
      rw [hget]
      rw [if_pos hn] at hio
      refine ⟨io, ?_, ?_, ?_⟩
      · rw [List.filter_append, hnone, List.filter_cons, if_pos hio']
        rfl
      · rw [hio, PortsList.getPinInfo, hio]
        exact if_pos (show p - pins.length < n by omega)
      · rw [hio]
        change p - pins.length + pins.length = p
        omega
    · have hnot : io.isMatch t d p = false := by
        rw [hmatch]
        exact decide_eq_false (by omega)
      rw [List.getElem?_eq_none (by rw [tablePins, List.length_map, List.length_range]; omega)]
      change (ports ++ [io]).filter (·.isMatch t d p) = []
      rw [List.filter_append, hnone, List.filter_cons_of_neg (by simp [hnot])]
      rfl

/-- A table of another type serves nothing in this one. -/
theorem Provided.add_other (h : Provided ports t d pins) {io : PortsList} (ht : io.type ≠ t) :
    Provided (ports ++ [io]) t d pins := by
  intro p
  have hnot : io.isMatch t d p = false := by simp [PortsList.isMatch, ht]
  have hsame : (ports ++ [io]).filter (·.isMatch t d p) = ports.filter (·.isMatch t d p) := by
    rw [List.filter_append, List.filter_cons_of_neg (by simp [hnot]), List.filter_nil,
      List.append_nil]
  have hserves := h p
  rw [hsame]
  unfold Serves at *
  rwa [hsame]

end Ioports

end Inspector
