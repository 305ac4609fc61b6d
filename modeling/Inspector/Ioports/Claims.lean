import Inspector.Ioports.Tables
import Inspector.Transition.Run

/-! # Claims of auxiliary ports

A session registers tables of pins, claims ports and looks at what the registry tells about them.
The claims that succeed are kept in a list beside it, with the numbers that they returned.
-/

namespace Inspector

namespace Ioports

open Slots

/-- A claim that succeeded: the physical port and the number that was returned for it. -/
structure Claim where
  port : ℕ
  number : ℕ
  deriving DecidableEq, Repr

/-- The registry with the physical ports and the claims made. -/
structure Session where
  state : State
  pins : PortType → Direction → List Xbar
  claims : PortType → Direction → List Claim

inductive Op
  /-- A driver registers a table of pins for both directions. -/
  | add (t : PortType) (n : Direction → ℕ) (pins : Direction → ℕ → Pin)
  | claim (t : PortType) (d : Direction) (port : ℕ)
  | info (t : PortType) (d : Direction) (number : ℕ)
  | unclaimed (t : PortType) (d : Direction)

namespace Session

def start : Session := ⟨State.init, fun _ _ => [], fun _ _ => []⟩

def claimed (x : Session) (t : PortType) (d : Direction) : List ℕ := (x.claims t d).map (·.port)

/-- The ports that are not claimed. -/
def free (x : Session) (t : PortType) (d : Direction) : List ℕ :=
  unclaimed (x.pins t d).length (x.claimed t d)

/-- The port is registered, has an auxiliary function and is not claimed. -/
def Claimable (x : Session) (t : PortType) (d : Direction) (p : ℕ) : Prop :=
  ∃ pin, (x.pins t d)[p]? = some pin ∧ isAux t d pin.function = true ∧ p ∉ x.claimed t d

def register (x : Session) (t : PortType) (n : Direction → ℕ) (pins : Direction → ℕ → Pin) :
    PortType → Direction → List Xbar :=
  fun t' d => if t' = t then x.pins t' d ++ tablePins (n d) (pins d) else x.pins t' d

def record (x : Session) (t : PortType) (d : Direction) (c : Claim) :
    PortType → Direction → List Claim :=
  fun t' d' => if t' = t ∧ d' = d then x.claims t' d' ++ [c] else x.claims t' d'

end Session

def exec (o : Option Session) (op : Op) : Option Session := do
  let x ← o
  match op with
  | .add t n pins =>
    let (ok, state) ← x.state.ioportsAdd t n pins
    return { x with state, pins := if ok then x.register t n pins else x.pins }
  | .claim t d port =>
    let (ok, state, number) ← x.state.ioportClaim t d port
    return { x with state, claims := if ok then x.record t d ⟨port, number⟩ else x.claims }
  | .info t d number =>
    let _ ← x.state.ioGetPinInfo t d number
    return x
  | .unclaimed t d =>
    let (_, state) ← x.state.ioportsUnclaimed t d
    return { x with state }

/-- The tables fit, and the function of an auxiliary pin is that of its place. Pins are looked at
after the first registration, with numbers of the map. -/
def Within (o : Option Session) (op : Op) : Prop :=
  ∃ x, o = some x ∧ match op with
    | .add t n pins => ∀ d, (x.pins t d).length + n d ≤ nMax t ∧
        ∀ i < n d, isAux t d (pins d i).function = true →
          (pins d i).function = minFn t d + ((x.pins t d).length + i)
    | .info _ _ number => x.state.ports ≠ [] ∧ number < MAX_PORTS
    | _ => True

/-- No count is kept of the directions that get ports, and none of the type has filled the map. A
port that is asked for is claimable if it is auxiliary, and otherwise no port without an auxiliary
function is found under its number. Only the first port is looked at when it is claimed. The ports
are counted while a number is free, or on a map that ends behind them with no port but the first
claimed. -/
def Permitted (o : Option Session) (op : Op) : Prop :=
  ∃ x, o = some x ∧ match op with
    | .add t n _ => ∀ d, (n d ≠ 0 → (x.state.portsCfg t d).free = none) ∧
        ((x.state.portsCfg t d).pnum = true → (x.pins t d).length < MAX_PORTS)
    | .claim t d port => ∀ pin, (x.pins t d)[port]? = some pin → port ∉ x.claimed t d →
        if isAux t d pin.function then pin.claimable = true
        else ∀ q other, (x.pins t d)[q]? = some other → q ∉ x.claimed t d →
          isAux t d other.function = false → (x.state.portsCfg t d).mapReverse t other.id ≠ port
    | .info t d number => ∀ c ∈ x.claims t d, c.number = number → c.port = 0
    | .unclaimed t d => (x.state.portsCfg t d).free ≠ none ∨ (x.pins t d).length < nMax t ∨
        nMax t < MAX_PORTS ∧ ∀ p ∈ x.claimed t d, p = 0

/-- The map holds every port once, those that are not claimed in ascending order at the lowest
numbers, and the numbers that were returned lead to the ports claimed. -/
def Mapped (o : Option Session) : Prop :=
  ∃ x, o = some x ∧ ∀ t d,
    (∀ p < (x.pins t d).length, ∃! i, i < nMax t ∧ (x.state.portsCfg t d).map i = p) ∧
    (List.range (x.free t d).length).map (x.state.portsCfg t d).map = x.free t d ∧
    ∀ c ∈ x.claims t d, (x.state.portsCfg t d).map c.number = c.port

/-- A claim succeeds exactly for a port that is to be had, and changes nothing if it fails. The
claimed flag of a pin and the number of ports that are not claimed are right. -/
def Answers (o : Option Session) (op : Op) : Prop :=
  ∃ x, o = some x ∧ match op with
    | .add _ _ _ => True
    | .claim t d port => ∃ ok s number, x.state.ioportClaim t d port = some (ok, s, number) ∧
        (ok = true ↔ x.Claimable t d port) ∧ (ok = false → s = x.state)
    | .info t d number => ∃ info, x.state.ioGetPinInfo t d number = some info ∧
        ∀ pin ∈ info, pin.claimed = decide ((x.state.portsCfg t d).map number ∈ x.claimed t d)
    | .unclaimed t d => ∃ s, x.state.ioportsUnclaimed t d = some ((x.free t d).length, s)

/-- What registrations and claims keep. -/
structure Good (x : Session) : Prop where
  layout : ∀ t d, Layout (x.state.portsCfg t d) t (x.pins t d).length (x.claimed t d)
  provided : ∀ t d, Provided x.state.ports t d (x.pins t d)
  hal : x.state.hal = true ↔ x.state.ports ≠ []
  pnum : ∀ t d d', (x.state.portsCfg t d).pnum = (x.state.portsCfg t d').pnum
  place : ∀ t d p pin, (x.pins t d)[p]? = some pin → isAux t d pin.function = true →
    pin.function = minFn t d + p
  aux : ∀ t d, ∀ p ∈ x.claimed t d, ∀ pin, (x.pins t d)[p]? = some pin →
    isAux t d pin.function = true
  numbers : ∀ t d j (h : j < (x.claims t d).length), (x.claims t d)[j].number + 1 + j = nMax t

namespace State

variable {s : State} {t : PortType} {d : Direction}

@[simp] theorem setCfg_same (cfg : Private) : (s.setCfg t d cfg).portsCfg t d = cfg :=
  if_pos ⟨rfl, rfl⟩

theorem setCfg_self : s.setCfg t d (s.portsCfg t d) = s := by
  have hsame : (fun t' d' => if t' = t ∧ d' = d then s.portsCfg t d else s.portsCfg t' d') =
      s.portsCfg := by
    funext t' d'
    split_ifs with h
    · obtain ⟨rfl, rfl⟩ := h
      rfl
    · rfl
  rw [setCfg, hsame]

theorem setCfg_setCfg (cfg cfg' : Private) :
    (s.setCfg t d cfg).setCfg t d cfg' = s.setCfg t d cfg' := by
  simp only [setCfg]
  congr 1
  funext t' d'
  split_ifs <;> rfl

end State

theorem Good.start : Good Session.start where
  layout t _ := Layout.init t
  provided _ _ := Provided.nil
  hal := by simp [Session.start, State.init]
  pnum _ _ _ := rfl
  place _ _ _ _ h := by cases h
  aux _ _ _ h := absurd h List.not_mem_nil
  numbers _ _ _ h := absurd h (Nat.not_lt_zero _)

namespace Good

variable {x : Session} {t : PortType} {d : Direction} {p : ℕ}

theorem mapped (h : Good x) : Mapped (some x) := by
  refine ⟨x, rfl, fun t d => ?_⟩
  have hlayout := h.layout t d
  rcases Nat.eq_zero_or_pos (x.pins t d).length with hzero | hpos
  · have hlen := length_unclaimed hlayout.nodup hlayout.lt
    have hfree : (x.free t d).length = 0 := by
      rw [Session.free]
      omega
    have hclaims : x.claims t d = [] := by
      apply List.length_eq_zero_iff.mp
      rw [← List.length_map (f := Claim.port)]
      change (x.claimed t d).length = 0
      omega
    refine ⟨fun p hp => by omega, ?_, ?_⟩
    · rw [hfree, List.length_eq_zero_iff.mp hfree]
      rfl
    · rw [hclaims]
      exact fun c hc => absurd hc List.not_mem_nil
  · have htwo := hlayout.laid (hlayout.known hpos)
    refine ⟨fun p hp => ?_, htwo.map_range, fun c hc => ?_⟩
    · apply htwo.existsUnique hlayout.append_nodup hlayout.blank_not_mem
      rwa [(perm_unclaimed hlayout.nodup hlayout.lt).mem_iff, List.mem_range]
    · obtain ⟨j, hj, rfl⟩ := List.getElem_of_mem hc
      have hnumber := h.numbers t d j hj
      have hmap := htwo.map_high j (by rwa [Session.claimed, List.length_map])
      rw [show nMax t - 1 - j = (x.claims t d)[j].number by omega] at hmap
      simpa [Session.claimed] using hmap

theorem ioGetPinInfo (h : Good x) (hports : x.state.ports ≠ []) {k : ℕ} (hk : k < MAX_PORTS) :
    x.state.ioGetPinInfo t d k =
      some ((x.pins t d)[(x.state.portsCfg t d).map k]?.map
        (·.seen t d (x.state.portsCfg t d).claimed ((x.state.portsCfg t d).map k))) := by
  rw [State.ioGetPinInfo]
  simp only [hk, hports, ne_eq, not_false_eq_true, and_self, if_true,
    (h.provided t d).findSome?_pinInfo]

/-- The flag that is given out is that of the first port. -/
theorem seen_claimed (h : Good x) (pin : Xbar) :
    (pin.seen t d (x.state.portsCfg t d).claimed p).claimed =
      decide (p = 0 ∧ 0 ∈ x.claimed t d) := by
  change (decide (p = 0) && (x.state.portsCfg t d).claimed.getLsbD 0) = _
  rw [(h.layout t d).mask, Bool.decide_and]

theorem ports_ne_nil (h : Good x) (hp : p < (x.pins t d).length) : x.state.ports ≠ [] :=
  (h.provided t d).ne_nil hp

/-- The pin that `get_info` finds has the port's number, and is not one that is seen as claimed. -/
theorem getInfoFrom (h : Good x) {n : ℕ} (hn : n ≤ (x.pins t d).length) :
    ∃ info, x.state.getInfoFrom t d p n = some info ∧ (∀ pin ∈ info, pin.claimed = false) ∧
      (info.isSome = true ↔ ∃ k < n, ∃ q pin, (x.state.portsCfg t d).map k = q ∧
        (x.pins t d)[q]? = some pin ∧ ¬(q = 0 ∧ 0 ∈ x.claimed t d) ∧
        (x.state.portsCfg t d).resolvePortnum t d pin = p) := by
  induction n with
  | zero => exact ⟨none, rfl, by simp, by simp⟩
  | succ n ih =>
    obtain ⟨info, hinfo, hflag, hiff⟩ := ih (by omega)
    have hmax : n < MAX_PORTS := by
      have := (h.layout t d).le
      have := nMax_le t
      omega
    have hget := h.ioGetPinInfo (t := t) (d := d) (h.ports_ne_nil (Nat.lt_of_succ_le hn)) hmax
    rw [State.getInfoFrom, hget]
    simp only [Option.bind_eq_bind, Option.bind_some, Nat.lt_succ_iff_lt_or_eq, or_and_right,
      exists_or, exists_eq_left, ← hiff]
    cases hpin : (x.pins t d)[(x.state.portsCfg t d).map n]? with
    | none =>
      refine ⟨info, hinfo, hflag, ?_⟩
      simp [hpin]
    | some pin =>
      simp only [Option.map_some, h.seen_claimed]
      split_ifs with hif
      · refine ⟨_, rfl, ?_, ?_⟩
        · rintro _ ⟨⟩
          rw [h.seen_claimed]
          simpa using hif.1
        · simp only [Option.isSome_some, true_iff]
          exact .inr ⟨_, pin, rfl, hpin, by simpa using hif.1, hif.2⟩
      · refine ⟨info, hinfo, hflag, ?_⟩
        rw [iff_self_or]
        rintro ⟨_, pin', rfl, hpin', hclaimed, hresolve⟩
        rw [hpin] at hpin'
        cases hpin'
        exact absurd ⟨by simpa using hclaimed, hresolve⟩ hif

theorem getInfo (h : Good x) (hhal : x.state.hal = true) (t : PortType) (d : Direction) (p : ℕ) :
    x.state.getInfo t d p = x.state.getInfoFrom t d p (x.pins t d).length := by
  have hlayout := h.layout t d
  rw [State.getInfo, if_pos hhal, hlayout.ports, hlayout.nPorts]
  by_cases hpos : 0 < (x.pins t d).length
  · rw [if_pos (decide_eq_true hpos)]
  · rw [if_neg (by simpa using hpos), Nat.eq_zero_of_not_pos hpos]

/-- The place of a port that is not claimed is below the number of ports. -/
theorem map_idxOf (h : Good x) (hp : p < (x.pins t d).length) (hnew : p ∉ x.claimed t d) :
    ∃ k < (x.pins t d).length, (x.state.portsCfg t d).map k = p := by
  have hlayout := h.layout t d
  have hlen := length_unclaimed hlayout.nodup hlayout.lt
  have hmem := mem_unclaimed.mpr ⟨hp, hnew⟩
  have hidx := List.idxOf_lt_length_of_mem hmem
  have hmap := (hlayout.laid (hlayout.known (Nat.zero_lt_of_lt hp))).map_low _ hidx
  exact ⟨_, by omega, hmap.trans (List.getElem_idxOf _)⟩

/-- A port that is to be had is claimed. -/
theorem ioportClaim_claimable (h : Good x) (hp : x.Claimable t d p)
    (hok : ∀ pin, (x.pins t d)[p]? = some pin → pin.claimable = true) :
    ∃ cfg number, x.state.ioportClaim t d p = some (true, x.state.setCfg t d cfg, number) ∧
      number + 1 + (x.claims t d).length = nMax t ∧ cfg.pnum = (x.state.portsCfg t d).pnum ∧
      Layout cfg t (x.pins t d).length (x.claimed t d ++ [p]) := by
  obtain ⟨pin, hpin, haux, hnew⟩ := hp
  have hlt : p < (x.pins t d).length := (List.getElem?_eq_some_iff.mp hpin).1
  have hlayout := h.layout t d
  have hports := h.ports_ne_nil hlt
  have hhal := h.hal.mpr hports
  obtain ⟨k, hk, hmap⟩ := h.map_idxOf hlt hnew
  obtain ⟨info, hinfo, hflag, hiff⟩ := h.getInfoFrom (p := p) (le_refl (x.pins t d).length)
  have hresolve : (x.state.portsCfg t d).resolvePortnum t d pin = p := by
    rw [Private.resolvePortnum, if_pos haux, h.place t d p pin hpin haux]
    omega
  have hsome : info.isSome = true := by
    refine hiff.mpr ⟨k, hk, p, pin, hmap, hpin, ?_, hresolve⟩
    rintro ⟨rfl, hmem⟩
    exact hnew hmem
  obtain ⟨found, rfl⟩ := Option.isSome_iff_exists.mp hsome
  have hp32 : p < 32 := by
    have := hlayout.le
    have := nMax_le t
    have := maxPorts_le
    omega
  have hbit : (x.state.portsCfg t d).claimed &&& 1#32 <<< p = 0 := by
    rw [mask_and_bit _ hp32, hlayout.mask]
    exact decide_eq_false hnew
  obtain ⟨cfg, hclaim, hnumber, hpnum, hlayout'⟩ := hlayout.claim hlt hnew
  have hlen : (x.claimed t d).length = (x.claims t d).length := List.length_map _
  refine ⟨{ cfg with free := none }, _, ?_, by rwa [hlen] at hnumber, hpnum, hlayout'⟩
  rw [State.ioportClaim, if_pos hhal, h.getInfo hhal, hinfo]
  simp only [Option.bind_eq_bind, Option.bind_some, hflag found rfl, Bool.false_eq_true, if_false]
  rw [State.ioClaim]
  simp only [hbit, if_true, (h.provided t d).claimLoop_some _ hpin (hok pin hpin), hclaim,
    Option.map_some, Option.bind_some, State.setCfg_same, State.setCfg_setCfg, Option.pure_def]

/-- A claim of another port fails, and changes nothing. -/
theorem ioportClaim_not_claimable (h : Good x) (hp : ¬x.Claimable t d p)
    (hok : ∀ pin, (x.pins t d)[p]? = some pin → p ∉ x.claimed t d → isAux t d pin.function = false →
      ∀ q other, (x.pins t d)[q]? = some other → q ∉ x.claimed t d →
        isAux t d other.function = false → (x.state.portsCfg t d).mapReverse t other.id ≠ p) :
    ∃ number, x.state.ioportClaim t d p = some (false, x.state, number) := by
  have hlayout := h.layout t d
  rw [State.ioportClaim]
  by_cases hhal : x.state.hal = true
  · rw [if_pos hhal, h.getInfo hhal]
    obtain ⟨info, hinfo, hflag, hiff⟩ := h.getInfoFrom (p := p) (le_refl (x.pins t d).length)
    rw [hinfo]
    cases info with
    | none => exact ⟨_, rfl⟩
    | some found =>
      obtain ⟨k, -, q, other, -, hother, hclaimed, hresolve⟩ := hiff.mp rfl
      have hfails : x.state.ioClaim t d p = some (false, x.state, p) := by
        rw [State.ioClaim]
        by_cases hbit : (x.state.portsCfg t d).claimed &&& 1#32 <<< p = 0
        · have hloop : (x.state.portsCfg t d).claimLoop t d p x.state.ports false =
              some (false, x.state.portsCfg t d, p) := by
            apply (h.provided t d).claimLoop_none
            by_contra hne
            obtain ⟨pin, hpin⟩ := Option.ne_none_iff_exists'.mp hne
            have hlt := (List.getElem?_eq_some_iff.mp hpin).1
            have hp32 : p < 32 := by
              have := hlayout.le
              have := nMax_le t
              have := maxPorts_le
              omega
            rw [mask_and_bit _ hp32, hlayout.mask, decide_eq_false_iff_not] at hbit
            have haux : isAux t d pin.function = false := by
              by_contra haux
              exact hp ⟨pin, hpin, by simpa using haux, hbit⟩
            cases hauxother : isAux t d other.function with
            | true =>
              rw [Private.resolvePortnum, if_pos hauxother, h.place t d q other hother hauxother,
                Nat.add_sub_cancel_left] at hresolve
              subst hresolve
              rw [hpin] at hother
              cases hother
              rw [haux] at hauxother
              cases hauxother
            | false =>
              have hq : q ∉ x.claimed t d := fun hq => by
                rw [h.aux t d q hq other hother] at hauxother
                cases hauxother
              rw [Private.resolvePortnum, if_neg (by simp [hauxother])] at hresolve
              exact hok pin hpin hbit haux q other hother hq hauxother hresolve
          simp only [hbit, if_true, hloop, Option.map_some, State.setCfg_self]
        · exact if_neg hbit
      refine ⟨IOPORT_UNASSIGNED, ?_⟩
      simp [hfails]
  · exact ⟨_, if_neg hhal⟩

/-- The ports that are found from the place `idx` on are counted. -/
theorem countFree (h : Good x) (hports : x.state.ports ≠ []) (last : ℕ) (hlast : last < MAX_PORTS)
    (hend : (x.pins t d)[(x.state.portsCfg t d).map last]? = none)
    (hfound : ∀ i < last, (x.state.portsCfg t d).map i < (x.pins t d).length) {k : ℕ} :
    ∀ {idx free fuel : ℕ}, idx + k = last → k < fuel →
      x.state.countFree t d fuel idx free = some (free +
        ((List.range' idx k).filter fun i =>
          ¬((x.state.portsCfg t d).map i = 0 ∧ 0 ∈ x.claimed t d)).length) := by
  induction k with
  | zero =>
    rintro idx free (_ | fuel) hidx hfuel
    · exact absurd hfuel (Nat.not_lt_zero _)
    · obtain rfl : idx = last := hidx
      rw [State.countFree, h.ioGetPinInfo hports hlast, hend]
      rfl
  | succ k ih =>
    rintro idx free (_ | fuel) hidx hfuel
    · exact absurd hfuel (Nat.not_lt_zero _)
    · have hlt := hfound idx (by omega)
      rw [State.countFree, h.ioGetPinInfo hports (by omega), List.getElem?_eq_getElem hlt]
      simp only [Option.map_some, Option.bind_eq_bind, Option.bind_some, h.seen_claimed,
        decide_eq_true_eq]
      rw [ih (by omega) (by omega), List.range'_succ, List.filter_cons]
      by_cases hzero : (x.state.portsCfg t d).map idx = 0 ∧ 0 ∈ x.claimed t d
      · simp [hzero]
      · simp only [hzero, if_false, not_false_eq_true, decide_true, if_true, List.length_cons]
        congr 1
        omega

/-- The ports that are not claimed are counted right if the search ends behind them, or after places
that only hold the first port. -/
theorem countFree_free (h : Good x) (hpos : 0 < (x.pins t d).length) (last : ℕ)
    (hlast : last < MAX_PORTS) (hle : (x.free t d).length ≤ last)
    (hend : (x.state.portsCfg t d).map last = 255)
    (hrest : ∀ i, (x.free t d).length ≤ i → i < last →
      (x.state.portsCfg t d).map i = 0 ∧ 0 ∈ x.claimed t d) :
    x.state.countFree t d (MAX_PORTS + 1) 0 0 = some (x.free t d).length := by
  have hlayout := h.layout t d
  have htwo := hlayout.laid (hlayout.known hpos)
  have hfree : ∀ i < (x.free t d).length, (x.state.portsCfg t d).map i ∈ x.free t d := by
    intro i hi
    rw [htwo.map_low i hi]
    exact List.getElem_mem hi
  have hnone : (x.pins t d)[(x.state.portsCfg t d).map last]? = none := by
    apply List.getElem?_eq_none
    have := hlayout.le
    have := nMax_le t
    have := maxPorts_le
    omega
  have hfound : ∀ i < last, (x.state.portsCfg t d).map i < (x.pins t d).length := by
    intro i hi
    rcases Nat.lt_or_ge i (x.free t d).length with hlt | hge
    · exact (mem_unclaimed.mp (hfree i hlt)).1
    · rwa [(hrest i hge hi).1]
  rw [h.countFree (h.ports_ne_nil hpos) last hlast hnone hfound (Nat.zero_add last) (by omega),
    Nat.zero_add]
  congr 1
  obtain ⟨r, rfl⟩ := Nat.exists_eq_add_of_le hle
  rw [← List.range'_append_1, List.filter_append, List.filter_eq_self.mpr, List.filter_eq_nil_iff.mpr,
    List.append_nil, List.length_range']
  · intro i hi
    obtain ⟨hge, hlt⟩ := List.mem_range'_1.mp hi
    simpa using hrest i (by omega) (by omega)
  · intro i hi
    have hnot := (mem_unclaimed.mp (hfree i (by simpa using hi))).2
    simp only [decide_eq_true_eq]
    rintro ⟨hzero, hmem⟩
    exact hnot (hzero ▸ hmem)

/-- The ports that are not claimed are counted right while a number is free, or on a map that ends
behind the ports if no port but the first is claimed. -/
theorem ioportsUnclaimed (h : Good x)
    (hok : (x.state.portsCfg t d).free ≠ none ∨ (x.pins t d).length < nMax t ∨
      nMax t < MAX_PORTS ∧ ∀ p ∈ x.claimed t d, p = 0) :
    ∃ s, x.state.ioportsUnclaimed t d = some ((x.free t d).length, s) ∧
      (s = x.state ∨ s = x.state.setCfg t d
        { x.state.portsCfg t d with free := some (x.free t d).length }) := by
  have hlayout := h.layout t d
  rw [State.ioportsUnclaimed]
  cases hcached : (x.state.portsCfg t d).free with
  | some free =>
    obtain rfl := hlayout.free free hcached
    exact ⟨_, rfl, .inl rfl⟩
  | none =>
    suffices hcount : x.state.countPorts t d = some (x.free t d).length by
      refine ⟨_, ?_, .inr rfl⟩
      simp only [hcount, Option.bind_eq_bind, Option.bind_some, Option.pure_def]
    have hlen : (x.free t d).length + _ = _ := length_unclaimed hlayout.nodup hlayout.lt
    have hmax := nMax_le t
    have hle := hlayout.le
    rw [State.countPorts]
    rcases Nat.eq_zero_or_pos (x.pins t d).length with hzero | hpos
    · rw [show (x.free t d).length = 0 by omega]
      split_ifs with hhal
      · have hnil := List.length_eq_zero_iff.mp hzero
        exact h.countFree (h.hal.mp hhal) 0 (by decide) (by rw [hnil]; rfl)
          (fun i hi => absurd hi (Nat.not_lt_zero i)) rfl (Nat.succ_pos _)
      · rfl
    · rw [if_pos (h.hal.mpr (h.ports_ne_nil hpos))]
      have htwo := hlayout.laid (hlayout.known hpos)
      rcases Nat.lt_or_ge (x.pins t d).length (nMax t) with hroom | hfull
      · refine h.countFree_free hpos (x.free t d).length (by omega) le_rfl
          (htwo.gap _ le_rfl ?_) (fun i hge hlt => absurd hlt (Nat.not_lt_of_le hge))
        exact lt_of_eq_of_lt hlen hroom
      · obtain ⟨hend, hzero⟩ : nMax t < MAX_PORTS ∧ ∀ p ∈ x.claimed t d, p = 0 := by
          rcases hok with hok | hok | hok
          · exact absurd hcached hok
          · omega
          · exact hok
        refine h.countFree_free hpos (nMax t) hend (by omega)
          (hlayout.beyond (hlayout.known hpos) _ le_rfl hend) fun i hge hlt => ?_
        have hj : nMax t - 1 - i < (x.claimed t d).length := by omega
        have hmap := htwo.map_high _ hj
        rw [show nMax t - 1 - (nMax t - 1 - i) = i by omega] at hmap
        have hmem := List.getElem_mem hj
        rw [← hmap] at hmem
        have hz := hzero _ hmem
        exact ⟨hz, hz ▸ hmem⟩

/-- The number of a claim is the only one that leads to its port. -/
theorem number_eq (h : Good x) {k : ℕ} (hk : k < MAX_PORTS)
    (hlt : (x.state.portsCfg t d).map k < (x.pins t d).length) {c : Claim} (hc : c ∈ x.claims t d)
    (hport : c.port = (x.state.portsCfg t d).map k) : c.number = k := by
  have hlayout := h.layout t d
  obtain ⟨_, ⟨⟩, hmapped⟩ := h.mapped
  obtain ⟨honce, -, hclaims⟩ := hmapped t d
  have hkmax : k < nMax t := by
    by_contra hge
    have hmap := hlayout.beyond (hlayout.known (Nat.zero_lt_of_lt hlt)) k (by omega) hk
    have := hlayout.le
    have := nMax_le t
    have := maxPorts_le
    omega
  have hnumber : c.number < nMax t := by
    obtain ⟨j, hj, rfl⟩ := List.getElem_of_mem hc
    have := h.numbers t d j hj
    omega
  exact (honce _ hlt).unique ⟨hnumber, (hclaims c hc).trans hport⟩ ⟨hkmax, rfl⟩

/-- A state in which only the data of one type and direction differ keeps what holds. -/
theorem setCfg (h : Good x) (cfg : Private) (claims : PortType → Direction → List Claim)
    (hsame : ∀ t' d', ¬(t' = t ∧ d' = d) → claims t' d' = x.claims t' d')
    (hpnum : cfg.pnum = (x.state.portsCfg t d).pnum)
    (hlayout : Layout cfg t (x.pins t d).length ((claims t d).map (·.port)))
    (haux : ∀ c ∈ claims t d, ∀ pin, (x.pins t d)[c.port]? = some pin →
      isAux t d pin.function = true)
    (hnumbers : ∀ j (h : j < (claims t d).length), (claims t d)[j].number + 1 + j = nMax t) :
    Good { x with state := x.state.setCfg t d cfg, claims := claims } := by
  constructor
  · intro t' d'
    by_cases heq : t' = t ∧ d' = d
    · obtain ⟨rfl, rfl⟩ := heq
      simpa [Session.claimed] using hlayout
    · simpa [Session.claimed, State.setCfg, heq, hsame t' d' heq] using h.layout t' d'
  · exact h.provided
  · exact h.hal
  · have hcfg : ∀ t' d', ((x.state.setCfg t d cfg).portsCfg t' d').pnum =
        (x.state.portsCfg t' d').pnum := by
      intro t' d'
      by_cases heq : t' = t ∧ d' = d
      · obtain ⟨rfl, rfl⟩ := heq
        simpa using hpnum
      · simp [State.setCfg, heq]
    intro t' d' d''
    rw [hcfg, hcfg]
    exact h.pnum t' d' d''
  · exact h.place
  · intro t' d' p hp pin hpin
    by_cases heq : t' = t ∧ d' = d
    · obtain ⟨rfl, rfl⟩ := heq
      obtain ⟨c, hc, rfl⟩ := List.mem_map.mp hp
      exact haux c hc pin hpin
    · have hclaimed : p ∈ (claims t' d').map (·.port) := hp
      rw [hsame t' d' heq] at hclaimed
      exact h.aux t' d' p hclaimed pin hpin
  · intro t' d' j hj
    by_cases heq : t' = t ∧ d' = d
    · obtain ⟨rfl, rfl⟩ := heq
      exact hnumbers j hj
    · simp only [hsame t' d' heq] at hj ⊢
      exact h.numbers t' d' j hj

/-- A claim that succeeds is kept with the others. -/
theorem claim (h : Good x) (hp : x.Claimable t d p) {cfg : Private} {number : ℕ}
    (hnumber : number + 1 + (x.claims t d).length = nMax t)
    (hpnum : cfg.pnum = (x.state.portsCfg t d).pnum)
    (hlayout : Layout cfg t (x.pins t d).length (x.claimed t d ++ [p])) :
    Good { x with
      state := x.state.setCfg t d cfg
      claims := x.record t d ⟨p, number⟩ } := by
  have hrecord : x.record t d ⟨p, number⟩ t d = x.claims t d ++ [⟨p, number⟩] := if_pos ⟨rfl, rfl⟩
  apply h.setCfg cfg
  · intro t' d' heq
    exact if_neg heq
  · exact hpnum
  · simpa [hrecord, Session.claimed] using hlayout
  · rw [hrecord]
    intro c hc pin hpin
    rcases List.mem_append.mp hc with hc | hc
    · exact h.aux t d c.port (List.mem_map_of_mem hc) pin hpin
    · obtain rfl := List.mem_singleton.mp hc
      obtain ⟨pin', hpin', haux, -⟩ := hp
      obtain rfl : pin' = pin := Option.some.inj (hpin'.symm.trans hpin)
      exact haux
  · intro j hj
    simp only [hrecord, List.length_append, List.length_singleton] at hj ⊢
    rcases Nat.lt_or_ge j (x.claims t d).length with hlt | hge
    · rw [List.getElem_append_left hlt]
      exact h.numbers t d j hlt
    · obtain rfl : j = (x.claims t d).length := by omega
      simpa using hnumber

/-- A count that is kept is right. -/
theorem count (h : Good x) : Good { x with
    state := x.state.setCfg t d { x.state.portsCfg t d with free := some (x.free t d).length } } := by
  have hlayout := h.layout t d
  refine h.setCfg { x.state.portsCfg t d with free := some (x.free t d).length } x.claims
    (fun _ _ _ => rfl) rfl ?_ ?_ ?_
  · refine { hlayout with free := ?_ }
    rintro _ ⟨⟩
    rfl
  · exact fun c hc => h.aux t d c.port (List.mem_map_of_mem hc)
  · exact h.numbers t d

/-- A table that fits is registered. -/
theorem add (h : Good x) {n : Direction → ℕ} {pins : Direction → ℕ → Pin}
    (hfits : ∀ d, (x.pins t d).length + n d ≤ nMax t)
    (hplace : ∀ d, ∀ i < n d, isAux t d (pins d i).function = true →
      (pins d i).function = minFn t d + ((x.pins t d).length + i))
    (hfree : ∀ d, n d ≠ 0 → (x.state.portsCfg t d).free = none)
    (hroom : ∀ d, (x.state.portsCfg t d).pnum = true → (x.pins t d).length < MAX_PORTS)
    (hn : n .input + n .output ≠ 0) :
    ∃ s, x.state.ioportsAdd t n pins = some (true, s) ∧
      Good { x with state := s, pins := x.register t n pins } := by
  set i := (x.state.portsCfg t .input).addPorts t (n .input) with hi
  set o := (x.state.portsCfg t .output).addPorts t (n .output) with ho
  have haddPorts : ∀ d, (x.state.portsCfg t d).addPorts t (n d) =
      ({ x.state.portsCfg t d with
          ports := (x.state.portsCfg t d).ports || decide (n d ≠ 0)
          nPorts := (x.pins t d).length + n d },
        if n d ≠ 0 then ⟨n d, (x.pins t d).length, (x.pins t d).length + n d - 1⟩
        else ⟨0, 255, 0⟩) := by
    intro d
    have hnum := (h.layout t d).nPorts
    rw [addPorts_eq _ t (by rw [hnum]; exact hfits d), hnum]
  have hiN : i.1.nPorts = (x.pins t .input).length + n .input := by rw [hi, haddPorts]
  have hoN : o.1.nPorts = (x.pins t .output).length + n .output := by rw [ho, haddPorts]
  obtain ⟨cfgIn, hcfgIn, hknownIn, hlayoutIn⟩ :=
    (h.layout t .input).add (b := max i.1.nPorts o.1.nPorts) (hfits _) (hfree _) (hroom _)
      (by rw [← hiN]; exact le_max_left _ _)
  obtain ⟨cfgOut, hcfgOut, hknownOut, hlayoutOut⟩ :=
    (h.layout t .output).add (b := max i.1.nPorts o.1.nPorts) (hfits _) (hfree _) (hroom _)
      (by rw [← hoN]; exact le_max_right _ _)
  rw [h.pnum t .output .input] at hcfgOut
  refine ⟨{ ({ x.state with hal := true }.setCfg t .input cfgIn).setCfg t .output cfgOut with
    ports := x.state.ports ++ [⟨t, Direction.pick i.2 o.2, pins⟩] }, ?_, ?_⟩
  · rw [State.ioportsAdd, if_neg hn]
    simp only [← hi, ← ho]
    rw [if_pos (by omega), hcfgIn, hcfgOut]
    rfl
  · have hcfg : ∀ d, (({ x.state with hal := true }.setCfg t .input cfgIn).setCfg t .output
        cfgOut).portsCfg t d = Direction.pick cfgIn cfgOut d := by
      rintro (_ | _) <;> simp [State.setCfg, Direction.pick]
    have hother : ∀ t', t' ≠ t → ∀ d, (({ x.state with hal := true }.setCfg t .input cfgIn).setCfg t
        .output cfgOut).portsCfg t' d = x.state.portsCfg t' d := by
      intro t' ht d
      simp [State.setCfg, ht]
    have hregister : ∀ d, x.register t n pins t d = x.pins t d ++ tablePins (n d) (pins d) :=
      fun d => if_pos rfl
    have hregisterOther : ∀ t', t' ≠ t → ∀ d, x.register t n pins t' d = x.pins t' d :=
      fun t' ht d => if_neg ht
    have hlen : ∀ d, (x.register t n pins t d).length = (x.pins t d).length + n d := by
      intro d
      rw [hregister, List.length_append, tablePins, List.length_map, List.length_range]
    constructor
    · intro t' d
      by_cases ht : t' = t
      · subst ht
        change Layout (((_ : State).setCfg _ _ _).portsCfg _ _) _ (x.register t' n pins t' d).length _
        rw [hcfg, hlen]
        cases d with
        | input => exact hlayoutIn
        | output => exact hlayoutOut
      · change Layout (((_ : State).setCfg _ _ _).portsCfg _ _) _ (x.register t n pins t' d).length _
        rw [hother t' ht, hregisterOther t' ht]
        exact h.layout t' d
    · intro t' d
      by_cases ht : t' = t
      · subst ht
        change Provided _ t' d (x.register t' n pins t' d)
        rw [hregister]
        apply (h.provided t' d).add rfl
        cases d with
        | input => exact congrArg Prod.snd (haddPorts .input)
        | output => exact congrArg Prod.snd (haddPorts .output)
      · change Provided _ t' d (x.register t n pins t' d)
        rw [hregisterOther t' ht]
        exact (h.provided t' d).add_other fun heq => ht heq.symm
    · exact iff_of_true rfl (by simp)
    · intro t' d d'
      by_cases ht : t' = t
      · subst ht
        have hknown : ∀ d, (Direction.pick cfgIn cfgOut d).pnum = true := by
          rintro (_ | _)
          · exact hknownIn
          · exact hknownOut
        change (((_ : State).setCfg _ _ _).portsCfg _ _).pnum =
          (((_ : State).setCfg _ _ _).portsCfg _ _).pnum
        rw [hcfg, hcfg, hknown, hknown]
      · change (((_ : State).setCfg _ _ _).portsCfg _ _).pnum =
          (((_ : State).setCfg _ _ _).portsCfg _ _).pnum
        rw [hother t' ht, hother t' ht]
        exact h.pnum t' d d'
    · intro t' d p pin hpin haux
      by_cases ht : t' = t
      · subst ht
        change (x.register t' n pins t' d)[p]? = some pin at hpin
        rw [hregister] at hpin
        rcases Nat.lt_or_ge p (x.pins t' d).length with hlt | hge
        · rw [List.getElem?_append_left hlt] at hpin
          exact h.place t' d p pin hpin haux
        · rw [List.getElem?_append_right hge, tablePins, List.getElem?_map,
            Option.map_eq_some_iff] at hpin
          obtain ⟨i, hi, rfl⟩ := hpin
          obtain ⟨hlt, heq⟩ := List.getElem?_eq_some_iff.mp hi
          rw [List.length_range] at hlt
          obtain rfl : p - (x.pins t' d).length = i := by simpa using heq
          have hfunction := hplace d _ hlt haux
          rw [Nat.add_sub_cancel' hge] at hfunction
          exact hfunction
      · change (x.register t n pins t' d)[p]? = some pin at hpin
        rw [hregisterOther t' ht] at hpin
        exact h.place t' d p pin hpin haux
    · intro t' d p hp pin hpin
      by_cases ht : t' = t
      · subst ht
        change (x.register t' n pins t' d)[p]? = some pin at hpin
        rw [hregister, List.getElem?_append_left ((h.layout t' d).lt p hp)] at hpin
        exact h.aux t' d p hp pin hpin
      · change (x.register t n pins t' d)[p]? = some pin at hpin
        rw [hregisterOther t' ht] at hpin
        exact h.aux t' d p hp pin hpin
    · exact h.numbers

end Good

/-- What one operation does that keeps to the conditions. -/
theorem step {x : Session} {op : Op} (h : Good x) (hwithin : Within (some x) op)
    (hpermitted : Permitted (some x) op) :
    Answers (some x) op ∧ ∃ x', exec (some x) op = some x' ∧ Good x' := by
  obtain ⟨_, ⟨⟩, hwithin⟩ := hwithin
  obtain ⟨_, ⟨⟩, hpermitted⟩ := hpermitted
  cases op with
  | add t n pins =>
    refine ⟨⟨x, rfl, trivial⟩, ?_⟩
    by_cases hn : n .input + n .output = 0
    · refine ⟨x, ?_, h⟩
      simp [exec, State.ioportsAdd, hn]
    · obtain ⟨s, hadd, hgood⟩ := h.add (fun d => (hwithin d).1) (fun d => (hwithin d).2)
        (fun d => (hpermitted d).1) (fun d => (hpermitted d).2) hn
      refine ⟨_, ?_, hgood⟩
      simp [exec, hadd]
  | claim t d port =>
    by_cases hp : x.Claimable t d port
    · have hok : ∀ pin, (x.pins t d)[port]? = some pin → pin.claimable = true := by
        obtain ⟨pin, hpin, haux, hnew⟩ := hp
        intro pin' hpin'
        obtain rfl : pin = pin' := Option.some.inj (hpin.symm.trans hpin')
        simpa only [haux, if_true] using hpermitted pin hpin hnew
      obtain ⟨cfg, number, hclaim, hnumber, hpnum, hlayout⟩ := h.ioportClaim_claimable hp hok
      refine ⟨⟨x, rfl, true, _, number, hclaim, by simp [hp], by simp⟩, _, ?_,
        h.claim hp hnumber hpnum hlayout⟩
      simp [exec, hclaim]
    · obtain ⟨number, hclaim⟩ := h.ioportClaim_not_claimable hp fun pin hpin hnew haux => by
        simpa only [haux, Bool.false_eq_true, if_false] using hpermitted pin hpin hnew
      refine ⟨⟨x, rfl, false, _, number, hclaim, by simp [hp], fun _ => rfl⟩, x, ?_, h⟩
      simp [exec, hclaim]
  | info t d number =>
    have hget := h.ioGetPinInfo (t := t) (d := d) hwithin.1 hwithin.2
    refine ⟨⟨x, rfl, _, hget, ?_⟩, x, ?_, h⟩
    · intro pin hpin
      obtain ⟨pin', hpin', rfl⟩ := Option.map_eq_some_iff.mp hpin
      rw [h.seen_claimed, decide_eq_decide]
      have hlt := (List.getElem?_eq_some_iff.mp hpin').1
      constructor
      · rintro ⟨hzero, hmem⟩
        rwa [hzero]
      · intro hmem
        obtain ⟨c, hc, hport⟩ := List.mem_map.mp hmem
        have hzero := hpermitted c hc (h.number_eq hwithin.2 hlt hc hport)
        rw [← hport, hzero] at hmem ⊢
        exact ⟨rfl, hmem⟩
    · simp [exec, hget]
  | unclaimed t d =>
    obtain ⟨s, hcount, hs⟩ := h.ioportsUnclaimed hpermitted
    refine ⟨⟨x, rfl, s, hcount⟩, { x with state := s }, ?_, ?_⟩
    · simp [exec, hcount]
    · rcases hs with rfl | rfl
      · exact h
      · exact h.count

/-- Along a run that keeps to the conditions the map holds every registered port once, numbers that
were returned lead to the same ports ever after, and the registry answers as the claims made say. -/
theorem registry (ops : List Op)
    (h : Transition.Along exec (fun o op => Within o op ∧ Permitted o op) (some Session.start) ops) :
    (∀ o ∈ Transition.states exec (some Session.start) ops, Mapped o) ∧
      Transition.Along exec Answers (some Session.start) ops := by
  have hstep : ∀ (o : Option Session) op, Within o op ∧ Permitted o op →
      (∃ x, o = some x ∧ Good x) → ∃ x, exec o op = some x ∧ Good x := by
    rintro _ op ⟨hwithin, hpermitted⟩ ⟨x, rfl, hx⟩
    exact (step hx hwithin hpermitted).2
  have hstart : ∃ x, some Session.start = some x ∧ Good x := ⟨_, rfl, Good.start⟩
  constructor
  · intro o ho
    obtain ⟨x, rfl, hx⟩ := Transition.forall_states hstep hstart h o ho
    exact hx.mapped
  · refine Transition.along_of_step hstep ?_ hstart h
    rintro _ op ⟨hwithin, hpermitted⟩ ⟨x, rfl, hx⟩
    exact (step hx hwithin hpermitted).1

/-- The table of a driver with digital inputs only. -/
def inputTable (n : ℕ) : Op :=
  .add .digital (Direction.pick n 0) fun _ i => { function := minFn .digital .input + i }

theorem registry_inputs :
    Mapped ([inputTable 2, .claim .digital .input 0, .info .digital .input 23,
      .unclaimed .digital .input].foldl exec (some Session.start)) := by
  have h : Transition.Along exec (fun o op => Within o op ∧ Permitted o op) (some Session.start)
      [inputTable 2, .claim .digital .input 0, .info .digital .input 23,
        .unclaimed .digital .input] := by
    refine ⟨⟨⟨_, rfl, ?_⟩, _, rfl, ?_⟩, ⟨⟨_, rfl, trivial⟩, _, rfl, ?_⟩,
      ⟨⟨_, rfl, ?_⟩, _, rfl, ?_⟩, ⟨⟨_, rfl, trivial⟩, _, rfl, ?_⟩, trivial⟩
    · rintro (_ | _)
      · exact ⟨by decide, fun i _ _ => congrArg (66 + ·) (Nat.zero_add i).symm⟩
      · exact ⟨by decide, fun i hi => absurd hi (Nat.not_lt_zero i)⟩
    · exact fun d => ⟨fun _ => rfl, fun hpnum => by cases hpnum⟩
    · rintro _ ⟨⟩ _
      rfl
    · exact ⟨List.cons_ne_nil _ _, by decide⟩
    · intro c hc _
      rw [List.mem_singleton.mp hc]
    · exact .inr (.inl (show 2 < 24 by decide))
  exact (registry _ h).1 _ Transition.foldl_mem_states

/-- The second port is claimed, but its pin is not seen as claimed. -/
theorem not_registry :
    ¬∀ ops, Transition.Along exec Within (some Session.start) ops →
      (∀ o ∈ Transition.states exec (some Session.start) ops, Mapped o) ∧
        Transition.Along exec Answers (some Session.start) ops := by
  intro h
  have hwithin : Transition.Along exec Within (some Session.start)
      [inputTable 2, .claim .digital .input 1, .info .digital .input 23] := by
    refine ⟨⟨_, rfl, ?_⟩, ⟨_, rfl, trivial⟩, ⟨_, rfl, ?_⟩, trivial⟩
    · rintro (_ | _)
      · exact ⟨by decide, fun i _ _ => congrArg (66 + ·) (Nat.zero_add i).symm⟩
      · exact ⟨by decide, fun i hi => absurd hi (Nat.not_lt_zero i)⟩
    · exact ⟨List.cons_ne_nil _ _, by decide⟩
  obtain ⟨-, -, ⟨_, hx, info, hinfo, hflag⟩, -⟩ := (h _ hwithin).2
  obtain rfl := Option.some.inj hx
  obtain rfl := Option.some.inj hinfo
  exact absurd (hflag _ rfl) (by decide)

end Ioports

end Inspector
