import Inspector.Memory.Range

/-! # Layout of the settings storage

The regions of the non-volatile storage are written back one at a time. The addresses are those of
five axes without rotation. Sizes that depend on the build are parameters.
-/

namespace Inspector

namespace Nvs

open Memory

/-- What is written back at once: the groups of `nvs_buffer.c` with an offset, the version byte
and the driver area. -/
inductive Region
  | version
  | global
  | build
  | startup (idx : ℕ)
  | coord (idx : ℕ)
  | tool (idx : ℕ)
  | driver
  deriving DecidableEq, Repr

/-- How physical storage is accessed: not at all, by `memcpy_to_nvs` or by `memcpy_to_flash`. -/
inductive Physical
  | none
  | nvs
  | flash
  deriving DecidableEq, Repr

/-- `NVS_CRC_BYTES`. -/
def nvsCrcBytes : ℕ := 2

/-- `N_STARTUP_LINE`. -/
def nStartupLine : ℕ := 2

/-- `N_CoordinateSystems`. -/
def nCoordinateSystems : ℕ := 12

/-- `sizeof(coord_system_data_t)`. -/
def sizeofCoordSystemData : ℕ := 20

/-- `sizeof(stored_line_t)`. -/
def sizeofStoredLine : ℕ := 70

/-- `GRBL_NVS_END`. -/
def grblNvsEnd : ℕ := 1023

/-- `NVS_ADDR_GLOBAL`. -/
def addrGlobal : ℕ := 1

/-- `NVS_ADDR_PARAMETERS`. -/
def addrParameters : ℕ := 512

/-- `NVS_ADDR_BUILD_INFO`. -/
def addrBuildInfo : ℕ := grblNvsEnd - (sizeofStoredLine + nvsCrcBytes)

/-- `NVS_ADDR_STARTUP_BLOCK`. -/
def addrStartupBlock : ℕ := addrBuildInfo - nStartupLine * (sizeofStoredLine + nvsCrcBytes) - 1

/-- `NVS_ADDR_TOOL_TABLE`. -/
def addrToolTable : ℕ := grblNvsEnd + 1

/-- What a build and its drivers decide about the storage. -/
structure Layout where
  physicalNvs : Physical
  sizeofSettings : ℕ
  nTools : ℕ
  sizeofToolData : ℕ
  driverAddress : ℕ
  driverSize : ℕ
  nvsSize : ℕ
  settings_fit : addrGlobal + sizeofSettings + nvsCrcBytes ≤ addrParameters
  nTools_le : nTools ≤ 32
  driver_after : driverAddress = 0 ∧ driverSize = 0 ∨
    addrToolTable + nTools * (sizeofToolData + nvsCrcBytes) ≤ driverAddress
  driver_fit : driverAddress + driverSize ≤ nvsSize
  tools_fit : addrToolTable + nTools * (sizeofToolData + nvsCrcBytes) ≤ nvsSize

namespace Layout

variable (L : Layout)

/-- `PARAMETER_ADDR`. -/
def parameterAddr (idx : ℕ) : ℕ := addrParameters + idx * (sizeofCoordSystemData + nvsCrcBytes)

/-- `STARTLINE_ADDR`. -/
def startlineAddr (idx : ℕ) : ℕ := addrStartupBlock + idx * (sizeofStoredLine + nvsCrcBytes)

/-- `TOOL_ADDR`. -/
def toolAddr (idx : ℕ) : ℕ := addrToolTable + idx * (L.sizeofToolData + nvsCrcBytes)

/-- The bytes that are written back for a region. -/
def range : Region → Range
  | .version => ⟨0, 1⟩
  | .global => ⟨addrGlobal, L.sizeofSettings + nvsCrcBytes⟩
  | .build => ⟨addrBuildInfo, sizeofStoredLine + nvsCrcBytes⟩
  | .startup idx => ⟨startlineAddr idx, sizeofStoredLine + nvsCrcBytes⟩
  | .coord idx => ⟨parameterAddr idx, sizeofCoordSystemData + nvsCrcBytes⟩
  | .tool idx => ⟨L.toolAddr idx, L.sizeofToolData + nvsCrcBytes⟩
  | .driver => ⟨L.driverAddress, L.driverSize⟩

/-- The regions that hold settings. -/
def Valid : Region → Prop
  | .startup idx => idx < nStartupLine
  | .coord idx => idx < nCoordinateSystems
  | .tool idx => idx < L.nTools
  | _ => True

/-- The entries for tools in `target`. -/
def toolTargets : ℕ :=
  if L.nTools = 0 then 0 else if L.nTools ≤ 8 then 8 else if L.nTools ≤ 16 then 16 else 32

/-- `target`. -/
def target : List (ℕ × Region) :=
  (addrGlobal, .global) ::
    ((List.range nCoordinateSystems).map fun idx => (parameterAddr idx, .coord idx)) ++
    ((List.range nStartupLine).map fun idx => (startlineAddr idx, .startup idx)) ++
    (addrBuildInfo, .build) ::
    ((List.range L.toolTargets).map fun idx => (L.toolAddr idx, .tool idx))

/-- The region that a write to an address is taken for. -/
def regionOf (destination : ℕ) : Option Region :=
  if L.driverAddress ≠ 0 ∧ L.driverAddress ≤ destination then some .driver
  else (L.target.find? fun entry => entry.1 = destination).map Prod.snd

/-- The address lies behind the driver area. -/
def Beyond (destination : ℕ) : Prop :=
  L.driverAddress ≠ 0 ∧ L.driverAddress + L.driverSize < destination

instance : DecidablePred L.Beyond := fun _ => inferInstanceAs (Decidable (_ ∧ _))

/-- The regions in the order in which they are written back. The loop over the coordinate systems
begins one above the last. -/
def syncOrder : List Region :=
  [.version, .global, .build] ++ (List.range nStartupLine).reverse.map .startup ++
    (List.range (nCoordinateSystems + 1)).reverse.map .coord ++
    .driver :: (List.range L.nTools).reverse.map .tool

variable {L} {r r' : Region}

theorem mem_syncOrder_of_valid (h : L.Valid r) : r ∈ L.syncOrder := by
  cases r with
  | version | global | build | driver => simp [syncOrder]
  | startup idx | coord idx | tool idx =>
    simp only [Valid] at h
    simp [syncOrder]
    omega

theorem mem_syncOrder_cases (h : r ∈ L.syncOrder) :
    L.Valid r ∨ r = .coord nCoordinateSystems := by
  cases r with
  | version | global | build | driver => exact .inl trivial
  | startup idx | tool idx =>
    simp [syncOrder] at h
    exact .inl h
  | coord idx =>
    simp [syncOrder] at h
    simp only [Valid, Region.coord.injEq]
    omega

theorem range_tool_le {idx : ℕ} (h : idx < L.nTools) :
    L.toolAddr idx + (L.sizeofToolData + nvsCrcBytes) ≤
      addrToolTable + L.nTools * (L.sizeofToolData + nvsCrcBytes) := by
  have hmul := Nat.mul_le_mul_right (L.sizeofToolData + nvsCrcBytes) (Nat.succ_le_of_lt h)
  rw [Nat.succ_mul] at hmul
  rw [toolAddr]
  omega

/-- A region ends before any address that the tool table and the driver area end before. -/
theorem range_le {n : ℕ} (h : L.Valid r)
    (htools : addrToolTable + L.nTools * (L.sizeofToolData + nvsCrcBytes) ≤ n)
    (hdriver : L.driverAddress + L.driverSize ≤ n) : (L.range r).start + (L.range r).size ≤ n := by
  have hs := L.settings_fit
  cases r with
  | tool idx => exact Nat.le_trans (range_tool_le h) htools
  | driver => exact hdriver
  | version | global | build =>
    simp only [range, addrGlobal, addrParameters, addrToolTable, addrBuildInfo, grblNvsEnd,
      sizeofStoredLine, nvsCrcBytes] at *
    omega
  | startup idx | coord idx =>
    simp only [range, Valid, startlineAddr, parameterAddr, addrStartupBlock, addrParameters,
      addrToolTable, addrBuildInfo, grblNvsEnd, sizeofStoredLine, sizeofCoordSystemData,
      nStartupLine, nCoordinateSystems, nvsCrcBytes] at *
    omega

theorem tool_disjoint {i j : ℕ} (h : i ≠ j) :
    (L.range (.tool i)).Disjoint (L.range (.tool j)) := by
  apply Range.disjoint_of_le
  simp only [range, toolAddr]
  rcases Nat.lt_or_gt_of_ne h with h | h
  · have hmul := Nat.mul_le_mul_right (L.sizeofToolData + nvsCrcBytes) (Nat.succ_le_of_lt h)
    rw [Nat.succ_mul] at hmul
    omega
  · have hmul := Nat.mul_le_mul_right (L.sizeofToolData + nvsCrcBytes) (Nat.succ_le_of_lt h)
    rw [Nat.succ_mul] at hmul
    omega

/-- Regions do not overlap. -/
theorem disjoint (h : L.Valid r) (h' : r' ∈ L.syncOrder) (hne : r ≠ r') :
    (L.range r).Disjoint (L.range r') := by
  have hs := L.settings_fit
  have hd := L.driver_after
  have ht : ∀ i, L.Valid (.tool i) → L.toolAddr i + (L.sizeofToolData + nvsCrcBytes) ≤
      addrToolTable + L.nTools * (L.sizeofToolData + nvsCrcBytes) := fun _ hi => range_tool_le hi
  have ha : ∀ i, addrToolTable ≤ L.toolAddr i := fun i => Nat.le_add_right _ _
  have hv : L.Valid r' ∨ r' = .coord nCoordinateSystems := mem_syncOrder_cases h'
  cases r <;> cases r'
  case tool.tool i j => exact tool_disjoint fun hij => hne (congrArg Region.tool hij)
  case tool.driver i =>
    have := ht i h
    apply Range.disjoint_of_le
    simp only [range]
    omega
  case driver.tool i =>
    have := ht i (hv.resolve_right Region.noConfusion)
    apply Range.disjoint_of_le
    simp only [range]
    omega
  all_goals
    apply Range.disjoint_of_le
    simp only [range, Valid, startlineAddr, parameterAddr, addrStartupBlock, addrParameters,
      addrToolTable, addrBuildInfo, addrGlobal, grblNvsEnd, sizeofStoredLine,
      sizeofCoordSystemData, nStartupLine, nCoordinateSystems, nvsCrcBytes, ne_eq,
      Region.startup.injEq, Region.coord.injEq, reduceCtorEq, or_false, not_true_eq_false] at *
  case tool.version i | tool.global i | tool.build i | tool.startup i _ | tool.coord i _ =>
    have := ha i
    omega
  case version.tool i | global.tool i | build.tool i | startup.tool _ i | coord.tool _ i =>
    have := ha i
    omega
  all_goals omega

end Layout

end Nvs

end Inspector
