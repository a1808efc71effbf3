/-
Module: LinuxKernel.Drivers.Raid10
Purpose: The layout of `drivers/md/raid10.c`. Sectors are natural numbers: with devices of less than 2^55
  sectors and less than 2^11 of them no product reaches 2^64. `raid10_find_virt` is the inverse unless, in
  an offset layout with far copies, the near copies of a chunk go on in the next row, which is that of the
  far copies.
Trusted boundary: human-reviewed spec
Main exports: raid10FindPhys, raid10FindVirt, Sound, raid10_sound_iff
-/
import Mathlib

namespace LinuxKernel.Drivers.Raid10

/-- The fields of `mddev_t` that `run` reads; `chunk_sectors` is an `int`. -/
structure Mddev where
  chunkSectors : Nat
  layout : Nat
  raidDisks : Nat
  devSectors : Nat
  chunkInt : chunkSectors < 2 ^ 31

/-- The fields of `conf_t` that give the layout. -/
structure Conf where
  raidDisks : Nat
  nearCopies : Nat
  farCopies : Nat
  copies : Nat
  farOffset : Bool
  stride : Nat
  chunkShift : Nat
  chunkMask : Nat
deriving DecidableEq, Repr

/-- Error numbers of `run`: `EINVAL` and `EIO`. -/
inductive Errno where
  | einval
  | eio
deriving DecidableEq, Repr

/-- `PAGE_SIZE >> 9`. -/
def pageSectors : Nat := 8

/-- `is_power_of_2(n)`. -/
def isPowerOf2 (n : Nat) : Bool := n ≠ 0 ∧ n &&& (n - 1) = 0

/-- `ffz(~word)`: the lowest bit that is set. -/
def ffzNot (word : Nat) : Nat := ((List.range 64).find? word.testBit).getD 64

/-- The geometry that `run` stores after its checks, and the `dev_sectors` it sets. -/
def setGeometry (mddev : Mddev) (nc fc : Nat) (fo : Bool) : Conf × Mddev :=
  let chunkShift := ffzNot mddev.chunkSectors
  let size := (mddev.devSectors >>> chunkShift) / fc
  let size := size * mddev.raidDisks
  let size := size / nc
  let stride := size * (nc * fc)
  -- round up
  let stride := stride + (mddev.raidDisks - 1)
  let stride := stride / mddev.raidDisks
  let devSectors := stride <<< chunkShift
  let stride := if fo then 1 else stride / fc
  ({ raidDisks := mddev.raidDisks, nearCopies := nc, farCopies := fc, copies := nc * fc, farOffset := fo
     stride := stride <<< chunkShift, chunkShift, chunkMask := mddev.chunkSectors - 1 },
    { mddev with devSectors })

/-- `run(mddev)` as far as it sets up the layout. -/
def run (mddev : Mddev) : Except Errno (Conf × Mddev) :=
  if mddev.chunkSectors < pageSectors ∨ ¬ isPowerOf2 mddev.chunkSectors then .error .einval
  else
    let nc := mddev.layout &&& 255
    let fc := (mddev.layout >>> 8) &&& 255
    let fo : Bool := mddev.layout &&& (1 <<< 16) ≠ 0
    if nc * fc < 2 ∨ nc * fc > mddev.raidDisks ∨ mddev.layout >>> 17 ≠ 0 then .error .eio
    else .ok (setGeometry mddev nc fc fo)

/-- `raid10_size(mddev, sectors, raid_disks)`. -/
def raid10Size (mddev : Mddev) (conf : Conf) (sectors raidDisks : Nat) : Nat :=
  let raidDisks := if raidDisks = 0 then mddev.raidDisks else raidDisks
  let sectors := if sectors = 0 then mddev.devSectors else sectors
  let size := sectors >>> conf.chunkShift
  let size := size / conf.farCopies
  let size := size * raidDisks
  let size := size / conf.nearCopies
  size <<< conf.chunkShift

/-- An entry of `r10bio->devs[]`. -/
structure Position where
  devnum : Nat
  addr : Nat
deriving DecidableEq, Repr

/-- The inner loop of `raid10_find_phys`: the far copies after the first. -/
def farLoop (conf : Conf) : (count d s : Nat) → List Position
  | 0, _, _ => []
  | count + 1, d, s =>
    let d := d + conf.nearCopies
    let d := if d ≥ conf.raidDisks then d - conf.raidDisks else d
    let s := s + conf.stride
    ⟨d, s⟩ :: farLoop conf count d s

/-- The outer loop of `raid10_find_phys`: the near copies. -/
def nearLoop (conf : Conf) : (count dev sector : Nat) → List Position
  | 0, _, _ => []
  | count + 1, dev, sector =>
    ⟨dev, sector⟩ :: farLoop conf (conf.farCopies - 1) dev sector ++
      if dev + 1 ≥ conf.raidDisks then nearLoop conf count 0 (sector + (conf.chunkMask + 1))
      else nearLoop conf count (dev + 1) sector

/-- `raid10_find_phys(conf, r10bio)`: the slots of `r10bio->devs[]` in order. -/
def raid10FindPhys (conf : Conf) (r10bioSector : Nat) : List Position :=
  let chunk := r10bioSector >>> conf.chunkShift
  let sector := r10bioSector &&& conf.chunkMask
  let chunk := chunk * conf.nearCopies
  let stripe := chunk / conf.raidDisks
  let dev := chunk % conf.raidDisks
  let stripe := if conf.farOffset then stripe * conf.farCopies else stripe
  let sector := sector + stripe <<< conf.chunkShift
  nearLoop conf conf.nearCopies dev sector

/-- The `while` loop of `raid10_find_virt`; it does not end when the stride is 0. -/
def strideLoop (conf : Conf) (sector dev : Nat) : Option (Nat × Nat) :=
  if conf.stride ≤ sector then
    if conf.stride = 0 then none
    else
      strideLoop conf (sector - conf.stride)
        (if dev < conf.nearCopies then dev + (conf.raidDisks - conf.nearCopies) else dev - conf.nearCopies)
  else some (sector, dev)
termination_by sector
decreasing_by omega

/-- `raid10_find_virt(conf, sector, dev)`. -/
def raid10FindVirt (conf : Conf) (sector dev : Nat) : Option Nat := do
  let offset := sector &&& conf.chunkMask
  let (chunk, dev) ←
    if conf.farOffset then
      let chunk := sector >>> conf.chunkShift
      let fc := chunk % conf.farCopies
      let chunk := chunk / conf.farCopies
      let dev : Int := dev - fc * conf.nearCopies
      let dev := if dev < 0 then dev + conf.raidDisks else dev
      some (chunk, dev.toNat)
    else (strideLoop conf sector dev).map fun (sector, dev) => (sector >>> conf.chunkShift, dev)
  let vchunk := chunk * conf.raidDisks + dev
  let vchunk := vchunk / conf.nearCopies
  some (vchunk <<< conf.chunkShift + offset)

open List Nat

/-! ### What `run` stores -/

/-- The geometry that `run` admits, with `rows` rows on each device. -/
structure Geometry (conf : Conf) (rows : Nat) : Prop where
  near : 1 ≤ conf.nearCopies
  far : 1 ≤ conf.farCopies
  fits : conf.nearCopies * conf.farCopies ≤ conf.raidDisks
  copies : conf.copies = conf.nearCopies * conf.farCopies
  mask : conf.chunkMask = 2 ^ conf.chunkShift - 1
  stride : conf.stride = (if conf.farOffset then 1 else rows) * 2 ^ conf.chunkShift

theorem ffzNot_two_pow {k : Nat} (small : k < 64) : ffzNot (2 ^ k) = k := by
  have found : (range 64).find? (2 ^ k).testBit = some k := by
    rw [find?_range_eq_some]
    refine ⟨testBit_two_pow_self, mem_range.mpr small, fun j low => ?_⟩
    rw [testBit_two_pow_of_ne (ne_of_gt low), Bool.not_false]
  rw [ffzNot, found, Option.getD_some]

variable {n nc fc rd d sector chunk : Nat} {mddev : Mddev}

theorem isPowerOf2_iff (power : isPowerOf2 n = true) : ∃ k, n = 2 ^ k := by
  rw [isPowerOf2, decide_eq_true_eq] at power
  exact (and_sub_one_eq_zero_iff_isPowerOfTwo power.1).mp power.2

/-- Rounding up gives back the rows of all the far copies: the copies do not fill the last row, but no row
is empty. -/
theorem used_rows (rows : Nat) (near : 1 ≤ nc) (far : 1 ≤ fc) (fits : nc * fc ≤ rd) :
    (rows * rd / nc * (nc * fc) + (rd - 1)) / rd = rows * fc := by
  have pos : 0 < rd := Nat.lt_of_lt_of_le (Nat.mul_pos near far) fits
  have low := div_mul_le_self (rows * rd) nc
  have high := lt_div_mul_add (a := rows * rd) near
  generalize rows * rd / nc = size at low high ⊢
  have least : rows * rd * fc ≤ size * nc * fc + (nc * fc - fc) := by
    have : rows * rd * fc ≤ (size * nc + (nc - 1)) * fc := Nat.mul_le_mul_right fc (by omega)
    rwa [Nat.add_mul, Nat.sub_mul, Nat.one_mul] at this
  have most : size * nc * fc ≤ rows * rd * fc := Nat.mul_le_mul_right fc low
  have order : rows * fc * rd = rows * rd * fc := by ring
  have product : size * (nc * fc) = size * nc * fc := by ring
  apply Nat.div_eq_of_lt_le
  · omega
  · rw [succ_mul]
    omega

theorem setGeometry_spec (fo : Bool) (near : 1 ≤ nc) (far : 1 ≤ fc)
    (fits : nc * fc ≤ mddev.raidDisks) (chunk : isPowerOf2 mddev.chunkSectors = true) :
    let conf := (setGeometry mddev nc fc fo).1
    let rows := (mddev.devSectors >>> conf.chunkShift) / fc
    Geometry conf rows ∧
      raid10Size (setGeometry mddev nc fc fo).2 conf 0 0 =
        rows * mddev.raidDisks / nc * 2 ^ conf.chunkShift := by
  obtain ⟨power, shape⟩ := isPowerOf2_iff chunk
  have small : power < 64 := by
    have bound := mddev.chunkInt
    rw [shape] at bound
    exact Nat.lt_of_lt_of_le (Nat.pow_lt_pow_iff_right (by decide) |>.mp bound) (by decide)
  have shift : ffzNot mddev.chunkSectors = power := by rw [shape, ffzNot_two_pow small]
  have used := used_rows ((mddev.devSectors >>> power) / fc) near far fits
  have half : (mddev.devSectors >>> power) / fc * fc / fc = (mddev.devSectors >>> power) / fc :=
    Nat.mul_div_cancel _ far
  dsimp only [setGeometry]
  rw [shift]
  refine ⟨⟨near, far, fits, rfl, by rw [shape], ?_⟩, ?_⟩
  · rw [used, half, shiftLeft_eq]
  · rw [raid10Size, if_pos rfl, if_pos rfl]
    rw [used, shiftLeft_shiftRight, half, shiftLeft_eq]

/-- What is known of a layout that `run` admits. -/
theorem run_geometry {mddev' : Mddev} {conf : Conf} (admitted : run mddev = .ok (conf, mddev')) :
    Geometry conf ((mddev.devSectors >>> conf.chunkShift) / conf.farCopies) ∧ raid10Size mddev' conf 0 0 =
        (mddev.devSectors >>> conf.chunkShift) / conf.farCopies * conf.raidDisks / conf.nearCopies *
          2 ^ conf.chunkShift := by
  simp only [run] at admitted
  split_ifs at admitted with chunk layout
  generalize mddev.layout &&& 255 = nc, mddev.layout >>> 8 &&& 255 = fc,
    decide (mddev.layout &&& 1 <<< 16 ≠ 0) = fo at admitted layout
  rw [not_or, not_or] at layout
  have near : 1 ≤ nc := Nat.pos_of_ne_zero fun zero => layout.1 (by rw [zero, Nat.zero_mul]; decide)
  have far : 1 ≤ fc := Nat.pos_of_ne_zero fun zero => layout.1 (by rw [zero, Nat.mul_zero]; decide)
  have spec := setGeometry_spec fo near far (not_lt.mp layout.2.1)
    (not_not.mp fun wrong => chunk (.inr wrong))
  have same := Except.ok.inj admitted
  obtain rfl : (setGeometry mddev nc fc fo).1 = conf := by rw [same]
  obtain rfl : (setGeometry mddev nc fc fo).2 = mddev' := by rw [same]
  exact spec

/-! ### The loops of `raid10_find_phys` -/

variable {conf : Conf} {rows : Nat}

theorem farLoop_eq (near : conf.nearCopies ≤ conf.raidDisks) (count s : Nat) (below : d < conf.raidDisks) :
    ⟨d, s⟩ :: farLoop conf count d s = (range (count + 1)).map fun f =>
        ⟨(d + f * conf.nearCopies) % conf.raidDisks, s + f * conf.stride⟩ := by
  induction count generalizing d s with
  | zero => simp [farLoop, mod_eq_of_lt below]
  | succ count ih =>
    have next : (if d + conf.nearCopies ≥ conf.raidDisks then d + conf.nearCopies - conf.raidDisks
        else d + conf.nearCopies) = (d + conf.nearCopies) % conf.raidDisks := by
      split_ifs with wrap
      · rw [mod_eq_sub_mod wrap, mod_eq_of_lt (by omega)]
      · rw [mod_eq_of_lt (not_le.mp wrap)]
    rw [farLoop, range_succ_eq_map, map_cons, map_map, next, ih _ (mod_lt _ (zero_lt_of_lt below))]
    congr 1
    · rw [zero_mul, zero_mul, add_zero, add_zero, mod_eq_of_lt below]
    · refine map_congr_left fun f _ => ?_
      simp only [Function.comp_apply, succ_eq_add_one, mod_add_mod, Position.mk.injEq]
      constructor
      · congr 1
        ring
      · ring

variable (geometry : Geometry conf rows)

include geometry

theorem nearLoop_eq (near : conf.nearCopies ≤ conf.raidDisks) {count dev : Nat}
    (sector : Nat) (below : dev < conf.raidDisks) (few : count ≤ conf.raidDisks) :
    nearLoop conf count dev sector = (range count).flatMap fun n => (range conf.farCopies).map fun f =>
        ⟨(dev + n + f * conf.nearCopies) % conf.raidDisks,
          sector + (if conf.raidDisks ≤ dev + n then 2 ^ conf.chunkShift else 0) + f * conf.stride⟩ := by
  have far := geometry.far
  have positive := Nat.two_pow_pos conf.chunkShift
  induction count generalizing dev sector with
  | zero => rfl
  | succ count ih =>
    rw [nearLoop, farLoop_eq near _ _ below, Nat.sub_add_cancel far, range_succ_eq_map,
      flatMap_cons, flatMap_map]
    congr 1
    · simp only [Nat.add_zero, if_neg (Nat.not_le.mpr below)]
    · split_ifs with last
      · rw [ih _ (by omega) (by omega), geometry.mask, Nat.sub_add_cancel positive]
        refine flatMap_congr fun n mem => map_congr_left fun f _ => ?_
        have small := mem_range.mp mem
        rw [if_neg (by omega), if_pos (by omega), Position.mk.injEq]
        refine ⟨?_, rfl⟩
        rw [show dev + Nat.succ n + f * conf.nearCopies =
          (0 + n + f * conf.nearCopies) + conf.raidDisks by omega,
          add_mod_right]
      · rw [ih _ (by omega) (by omega)]
        refine flatMap_congr fun n _ => map_congr_left fun f _ => ?_
        simp only [succ_eq_add_one, Nat.add_assoc, Nat.add_comm 1 n]

/-! ### The copies of a chunk -/

/-- Whether the near copy `n` of the chunk lies in the row after that of the first copy. -/
def wraps (conf : Conf) (chunk n : Nat) : Nat :=
  if conf.raidDisks ≤ chunk * conf.nearCopies % conf.raidDisks + n then 1 else 0

/-- Where copy `(n, f)` of a sector is. -/
def copyAt (conf : Conf) (sector n f : Nat) : Position where
  devnum := (sector / 2 ^ conf.chunkShift * conf.nearCopies + n + f * conf.nearCopies) % conf.raidDisks
  addr := (sector / 2 ^ conf.chunkShift * conf.nearCopies / conf.raidDisks *
      (if conf.farOffset then conf.farCopies else 1) + wraps conf (sector / 2 ^ conf.chunkShift) n) *
      2 ^ conf.chunkShift + sector % 2 ^ conf.chunkShift + f * conf.stride

theorem Geometry.near_le : conf.nearCopies ≤ conf.raidDisks :=
  Nat.le_trans (Nat.le_mul_of_pos_right _ geometry.far) geometry.fits

theorem Geometry.disks_pos : 0 < conf.raidDisks :=
  lt_of_lt_of_le geometry.near geometry.near_le

/-- All copies of a chunk are less than one turn apart. -/
theorem Geometry.copy_lt {f : Nat} (near : n < conf.nearCopies) (far : f < conf.farCopies) :
    n + f * conf.nearCopies < conf.raidDisks := by
  have : f * conf.nearCopies + conf.nearCopies ≤ conf.farCopies * conf.nearCopies := by
    rw [← succ_mul]
    exact mul_le_mul_right _ far
  have := geometry.fits
  rw [mul_comm] at this
  omega

theorem Geometry.and_mask (sector : Nat) : sector &&& conf.chunkMask = sector % 2 ^ conf.chunkShift := by
  rw [geometry.mask, and_two_pow_sub_one_eq_mod]

theorem raid10FindPhys_eq (sector : Nat) : raid10FindPhys conf sector =
      (range conf.nearCopies ×ˢ range conf.farCopies).map fun copy => copyAt conf sector copy.1 copy.2 := by
  have product {α : Type} (g : Nat → Nat → α) (a b : List Nat) :
      (a ×ˢ b).map (fun copy => g copy.1 copy.2) = a.flatMap fun n => b.map fun f => g n f := by
    simp only [SProd.sprod, product, map_flatMap, map_map]
    rfl
  rw [product, raid10FindPhys, nearLoop_eq geometry geometry.near_le _ (mod_lt _ geometry.disks_pos)
    geometry.near_le]
  refine flatMap_congr fun n _ => map_congr_left fun f _ => ?_
  rw [copyAt, Position.mk.injEq, geometry.and_mask, shiftRight_eq_div_pow, shiftLeft_eq, wraps]
  constructor
  · rw [add_assoc, mod_add_mod, add_assoc]
  · split_ifs <;> ring

theorem mem_raid10FindPhys {position : Position} : position ∈ raid10FindPhys conf sector ↔
      ∃ n < conf.nearCopies, ∃ f < conf.farCopies, copyAt conf sector n f = position := by
  rw [raid10FindPhys_eq geometry, mem_map]
  constructor
  · rintro ⟨⟨n, f⟩, mem, same⟩
    rw [mem_product, mem_range, mem_range] at mem
    exact ⟨n, mem.1, f, mem.2, same⟩
  · rintro ⟨n, near, f, far, same⟩
    exact ⟨(n, f), mem_product.mpr ⟨mem_range.mpr near, mem_range.mpr far⟩, same⟩

omit geometry

theorem add_mod_inj {base disks a b : Nat} (first : a < disks) (second : b < disks)
    (same : (base + a) % disks = (base + b) % disks) : a = b := by
  have congruent : Nat.ModEq disks a b := Nat.ModEq.add_left_cancel' base same
  exact congruent.eq_of_lt_of_lt first second

include geometry

/-- The copies of a sector are on distinct devices. -/
theorem devnums_nodup (sector : Nat) : ((raid10FindPhys conf sector).map Position.devnum).Nodup := by
  rw [raid10FindPhys_eq geometry, map_map]
  refine (nodup_range.product nodup_range).map_on ?_
  rintro ⟨n, f⟩ mem ⟨n', f'⟩ mem' same
  rw [mem_product, mem_range, mem_range] at mem mem'
  simp only [copyAt, add_assoc] at same
  have sum := add_mod_inj (geometry.copy_lt mem.1 mem.2) (geometry.copy_lt mem'.1 mem'.2) same
  have low : n = n' := by
    have mods := congrArg (· % conf.nearCopies) sum
    simp only [add_mul_mod_self_right] at mods
    rwa [mod_eq_of_lt mem.1, mod_eq_of_lt mem'.1] at mods
  have high : f = f' := eq_of_mul_eq_mul_right geometry.near (by omega)
  rw [low, high]

/-! ### `raid10_find_virt` -/

/-- The place of a copy in the order of the first far copy: its row and its device there. -/
theorem place_eq (near : n < conf.nearCopies) :
    (chunk * conf.nearCopies + n) / conf.raidDisks = chunk * conf.nearCopies / conf.raidDisks + wraps
      conf chunk n := by
  rw [Nat.add_div geometry.disks_pos, div_eq_of_lt (Nat.lt_of_lt_of_le near geometry.near_le),
    Nat.add_zero, wraps,
    mod_eq_of_lt (lt_of_lt_of_le near geometry.near_le)]

omit geometry

/-- Going back one far copy. -/
theorem strideLoop_copy (near : conf.nearCopies ≤ conf.raidDisks) (inside : sector < conf.stride)
    (below : d < conf.raidDisks) (f : Nat) :
    strideLoop conf (sector + f * conf.stride) ((d + f * conf.nearCopies) % conf.raidDisks) =
      some (sector, d) := by
  induction f with
  | zero =>
    rw [zero_mul, zero_mul, add_zero, add_zero, mod_eq_of_lt below, strideLoop, if_neg (not_le.mpr inside)]
  | succ f ih =>
    have back : sector + (f + 1) * conf.stride - conf.stride = sector + f * conf.stride := by
      rw [succ_mul, ← Nat.add_assoc, Nat.add_sub_cancel]
    have far : conf.stride ≤ sector + (f + 1) * conf.stride := by
      rw [succ_mul]
      omega
    have turn : (if (d + (f + 1) * conf.nearCopies) % conf.raidDisks < conf.nearCopies then
          (d + (f + 1) * conf.nearCopies) % conf.raidDisks + (conf.raidDisks - conf.nearCopies)
        else (d + (f + 1) * conf.nearCopies) % conf.raidDisks - conf.nearCopies) =
        (d + f * conf.nearCopies) % conf.raidDisks := by
      rw [succ_mul, ← add_assoc, ← mod_add_mod]
      have low := mod_lt (d + f * conf.nearCopies) (zero_lt_of_lt below)
      generalize (d + f * conf.nearCopies) % conf.raidDisks = previous at low ⊢
      by_cases wrap : conf.raidDisks ≤ previous + conf.nearCopies
      · rw [mod_eq_sub_mod wrap, mod_eq_of_lt (by omega), if_pos (by omega)]
        omega
      · rw [mod_eq_of_lt (not_le.mp wrap), if_neg (by omega)]
        omega
    rw [strideLoop, if_pos far, if_neg (by omega), back, turn, ih]

/-- The rotation of the devices is undone. -/
theorem rotate_back {shift : Nat} (small : shift < rd) (below : d < rd) :
    (if (((d + shift) % rd : Nat) : Int) - (shift : Int) < 0 then
        (((d + shift) % rd : Nat) : Int) - (shift : Int) + (rd : Int)
      else (((d + shift) % rd : Nat) : Int) - (shift : Int)).toNat = d := by
  rw [add_mod_eq_ite, mod_eq_of_lt small, mod_eq_of_lt below]
  split_ifs <;> omega

theorem mul_add_div_of_lt {a b low : Nat} (inside : low < b) : (a * b + low) / b = a := by
  rw [Nat.add_comm, add_mul_div_right _ _ (zero_lt_of_lt inside), div_eq_of_lt inside, Nat.zero_add]

/-- `raid10_find_virt` in an offset layout, for a position in the row `row` and far copy `f`. -/
theorem raid10FindVirt_offset (geometry : Geometry conf rows) (offset : conf.farOffset = true)
    {row f d low : Nat}
    (far : f < conf.farCopies) (below : d < conf.raidDisks) (inside : low < 2 ^ conf.chunkShift) :
    raid10FindVirt conf ((row * conf.farCopies + f) * 2 ^ conf.chunkShift + low)
        ((d + f * conf.nearCopies) % conf.raidDisks) =
      some ((row * conf.raidDisks + d) / conf.nearCopies * 2 ^ conf.chunkShift + low) := by
  have back := rotate_back (Nat.lt_of_le_of_lt (Nat.le_add_left ..) (geometry.copy_lt geometry.near far))
    below
  rw [cast_mul] at back
  rw [raid10FindVirt, if_pos offset, geometry.and_mask]
  simp only [shiftRight_eq_div_pow, mul_add_div_of_lt inside, mul_add_mod_of_lt far,
    mul_add_div_of_lt far, back,
    Option.bind_eq_bind, Option.bind_some, mul_add_mod_of_lt inside, shiftLeft_eq]

/-- `raid10_find_virt` in a layout without offset, for a position in a row of far copy `f`. -/
theorem raid10FindVirt_far (geometry : Geometry conf rows) (offset : conf.farOffset = false)
    {row low : Nat} (f : Nat) (within : row < rows) (below : d < conf.raidDisks)
    (inside : low < 2 ^ conf.chunkShift) :
    raid10FindVirt conf (row * 2 ^ conf.chunkShift + low + f * conf.stride)
        ((d + f * conf.nearCopies) % conf.raidDisks) =
      some ((row * conf.raidDisks + d) / conf.nearCopies * 2 ^ conf.chunkShift + low) := by
  have stride : conf.stride = rows * 2 ^ conf.chunkShift := by
    rw [geometry.stride, offset, if_neg Bool.false_ne_true]
  have fits : row * 2 ^ conf.chunkShift + low < conf.stride := by
    have : (row + 1) * 2 ^ conf.chunkShift ≤ rows * 2 ^ conf.chunkShift := Nat.mul_le_mul_right _ within
    rw [succ_mul] at this
    omega
  have offsetIn : (row * 2 ^ conf.chunkShift + low + f * conf.stride) % 2 ^ conf.chunkShift = low := by
    rw [stride, show row * 2 ^ conf.chunkShift + low + f * (rows * 2 ^ conf.chunkShift) =
      low + (row + f * rows) * 2 ^ conf.chunkShift by ring, add_mul_mod_self_right, mod_eq_of_lt inside]
  rw [raid10FindVirt, offset, if_neg Bool.false_ne_true, geometry.and_mask, offsetIn,
    strideLoop_copy geometry.near_le fits below]
  simp only [Option.map_some, Option.bind_eq_bind, Option.bind_some, shiftRight_eq_div_pow,
    mul_add_div_of_lt inside,
    shiftLeft_eq]

/-! ### Soundness -/

/-- The layout of an array of `size` sectors is sound. -/
structure Sound (conf : Conf) (size : Nat) : Prop where
  slots : ∀ sector < size, (raid10FindPhys conf sector).length = conf.copies
  devices : ∀ sector < size, ((raid10FindPhys conf sector).map Position.devnum).Nodup
  below : ∀ sector < size, ∀ position ∈ raid10FindPhys conf sector, position.devnum < conf.raidDisks
  back : ∀ sector < size, ∀ position ∈ raid10FindPhys conf sector,
    raid10FindVirt conf position.addr position.devnum = some sector
  apart : ∀ sector < size, ∀ other < size, sector ≠ other →
    ∀ position ∈ raid10FindPhys conf sector, position ∉ raid10FindPhys conf other

/-- No near copies of a chunk go on in the next row where the rows of the far copies are in between: the
layout is not an offset layout, or has no far copies, or the near copies fill a row, or there is only one
row. -/
def NoWrap (conf : Conf) (rows : Nat) : Prop :=
  conf.farOffset = false ∨ conf.farCopies = 1 ∨ conf.nearCopies ∣ conf.raidDisks ∨ rows ≤ 1
deriving Decidable

theorem wraps_eq_zero (near : n < conf.nearCopies)
    (room : chunk * conf.nearCopies % conf.raidDisks + conf.nearCopies ≤ conf.raidDisks) :
      wraps conf chunk n = 0 :=
  if_neg (by omega)

include geometry

/-- Under the condition, the row of a copy is where `raid10_find_virt` looks for it. -/
theorem row_eq (noWrap : NoWrap conf rows)
    (near : n < conf.nearCopies) (within : chunk < rows * conf.raidDisks / conf.nearCopies)
    (offset : conf.farOffset = true) :
    chunk * conf.nearCopies / conf.raidDisks * conf.farCopies + wraps conf chunk n =
      (chunk * conf.nearCopies + n) / conf.raidDisks * conf.farCopies := by
  have positive := geometry.near
  have unwrapped (room : chunk * conf.nearCopies % conf.raidDisks + conf.nearCopies ≤ conf.raidDisks) :
      chunk * conf.nearCopies / conf.raidDisks * conf.farCopies + wraps conf chunk n =
        (chunk * conf.nearCopies + n) / conf.raidDisks * conf.farCopies := by
    rw [place_eq geometry near, wraps_eq_zero near room, add_zero, add_zero]
  rcases noWrap with plain | single | fills | one
  · rw [plain] at offset
    cases offset
  · rw [single, mul_one, mul_one, place_eq geometry near]
  · obtain ⟨groups, shape⟩ := fills
    have below := mod_lt (chunk * conf.nearCopies) geometry.disks_pos
    refine unwrapped ?_
    rw [shape, mul_comm chunk, mul_mod_mul_left] at below ⊢
    exact Nat.mul_le_mul_left _ (Nat.lt_of_mul_lt_mul_left below)
  · have last : (chunk + 1) * conf.nearCopies ≤ conf.raidDisks := by
      have : (chunk + 1) * conf.nearCopies ≤ rows * conf.raidDisks :=
        (le_div_iff_mul_le positive).mp within
      have : rows * conf.raidDisks ≤ 1 * conf.raidDisks := mul_le_mul_right _ one
      omega
    rw [succ_mul] at last
    refine unwrapped ?_
    rw [mod_eq_of_lt (by omega)]
    exact last

/-- Each copy of a sector of the array is mapped back to it. -/
theorem findVirt_copyAt (noWrap : NoWrap conf rows) {f : Nat}
    (within : sector < rows * conf.raidDisks / conf.nearCopies * 2 ^ conf.chunkShift)
    (near : n < conf.nearCopies) (far : f < conf.farCopies) :
    raid10FindVirt conf (copyAt conf sector n f).addr (copyAt conf sector n f).devnum = some sector := by
  have positive := Nat.two_pow_pos conf.chunkShift
  have inside := mod_lt sector positive
  have chunks : sector / 2 ^ conf.chunkShift < rows * conf.raidDisks / conf.nearCopies :=
    Nat.div_lt_of_lt_mul (by rwa [Nat.mul_comm])
  have whole := div_add_mod sector (2 ^ conf.chunkShift)
  rw [copyAt]
  generalize sector / 2 ^ conf.chunkShift = chunk at chunks whole ⊢
  have below := mod_lt (chunk * conf.nearCopies + n) geometry.disks_pos
  have result : (((chunk * conf.nearCopies + n) / conf.raidDisks * conf.raidDisks +
      (chunk * conf.nearCopies + n) % conf.raidDisks) / conf.nearCopies * 2 ^ conf.chunkShift +
      sector % 2 ^ conf.chunkShift) = sector := by
    rw [div_add_mod', mul_add_div_of_lt near, Nat.mul_comm]
    exact whole
  rw [← mod_add_mod]
  cases offset : conf.farOffset with
  | true =>
    have stride : conf.stride = 2 ^ conf.chunkShift := by rw [geometry.stride, if_pos offset, Nat.one_mul]
    rw [if_pos rfl, row_eq geometry noWrap near chunks offset, stride,
      show ∀ row low, row * 2 ^ conf.chunkShift + low + f * 2 ^ conf.chunkShift =
        (row + f) * 2 ^ conf.chunkShift + low by intros; ring,
      raid10FindVirt_offset geometry offset far below inside, result]
  | false =>
    have row : (chunk * conf.nearCopies + n) / conf.raidDisks < rows := by
      rw [Nat.div_lt_iff_lt_mul geometry.disks_pos]
      have : (chunk + 1) * conf.nearCopies ≤ rows * conf.raidDisks :=
        (Nat.le_div_iff_mul_le geometry.near).mp chunks
      rw [succ_mul] at this
      omega
    rw [if_neg Bool.false_ne_true, Nat.mul_one, ← place_eq geometry near,
      raid10FindVirt_far geometry offset f row below inside, result]

theorem sound_of_noWrap (noWrap : NoWrap conf rows) :
    Sound conf (rows * conf.raidDisks / conf.nearCopies * 2 ^ conf.chunkShift) := by
  have back : ∀ sector < rows * conf.raidDisks / conf.nearCopies * 2 ^ conf.chunkShift,
      ∀ key ∈ raid10FindPhys conf sector,
        raid10FindVirt conf key.addr key.devnum = some sector := by
    intro sector within key mem
    obtain ⟨n, near, f, far, rfl⟩ := (mem_raid10FindPhys geometry).mp mem
    exact findVirt_copyAt geometry noWrap within near far
  refine ⟨fun sector _ => ?_, fun sector _ => devnums_nodup geometry sector,
    fun sector _ key mem => ?_, back, ?_⟩
  · rw [raid10FindPhys_eq geometry, length_map, length_product, length_range, length_range, geometry.copies]
  · obtain ⟨n, near, f, far, rfl⟩ := (mem_raid10FindPhys geometry).mp mem
    exact mod_lt _ geometry.disks_pos
  · intro sector within other withinOther ne key mem memberOther
    exact ne (Option.some_inj.mp
      ((back sector within key mem).symm.trans (back other withinOther key memberOther)))

/-- Where the near copies go on in the next row of an offset layout, `raid10_find_virt` gives another
chunk. -/
theorem not_sound_of_wrap (wrap : ¬ NoWrap conf rows) :
    ¬ Sound conf (rows * conf.raidDisks / conf.nearCopies * 2 ^ conf.chunkShift) := by
  rw [NoWrap, not_or, not_or, not_or] at wrap
  obtain ⟨offset, several, partly, more⟩ := wrap
  rw [Bool.not_eq_false] at offset
  have near := geometry.near
  have nearLe := geometry.near_le
  have positive := Nat.two_pow_pos conf.chunkShift
  have far : 1 < conf.farCopies := Nat.lt_of_le_of_ne geometry.far (Ne.symm several)
  -- the chunk whose first copy is the last that begins in row 0
  have split := div_add_mod' conf.raidDisks conf.nearCopies
  have rest := mod_lt conf.raidDisks near
  have within : conf.raidDisks / conf.nearCopies < rows * conf.raidDisks / conf.nearCopies := by
    rw [lt_iff_add_one_le, Nat.le_div_iff_mul_le near, succ_mul]
    have : 2 * conf.raidDisks ≤ rows * conf.raidDisks := Nat.mul_le_mul_right _ (by omega)
    omega
  intro sound
  have first : conf.raidDisks / conf.nearCopies * 2 ^ conf.chunkShift / 2 ^ conf.chunkShift =
      conf.raidDisks / conf.nearCopies := Nat.mul_div_cancel _ positive
  have key : copyAt conf (conf.raidDisks / conf.nearCopies * 2 ^ conf.chunkShift)
      (conf.raidDisks % conf.nearCopies) 0 = ⟨0, 2 ^ conf.chunkShift⟩ := by
    rw [copyAt, first, split, Nat.zero_mul, Nat.add_zero, mod_self, mul_mod_left, Nat.zero_mul, Nat.add_zero,
      div_eq_of_lt (by omega), Nat.zero_mul, wraps, mod_eq_of_lt (by omega),
      if_pos (Nat.le_of_eq split.symm), Nat.one_mul]
  have back := sound.back _ (Nat.mul_lt_mul_of_pos_right within positive) _
    ((mem_raid10FindPhys geometry).mpr ⟨_, rest, 0, geometry.far, key⟩)
  have found := @raid10FindVirt_offset _ _ geometry offset 0 1 (conf.raidDisks - conf.nearCopies) 0 far
    (by omega) positive
  rw [Nat.zero_mul, Nat.one_mul, Nat.one_mul, Nat.sub_add_cancel nearLe, mod_self,
    Nat.zero_mul, Nat.zero_add] at found
  have same := eq_of_mul_eq_mul_right positive (Option.some_inj.mp (found.symm.trans back))
  have next := div_eq_sub_div near nearLe
  omega

omit geometry

/-- The layout of an array that `run` admits is sound exactly when no near copies go on in the next row of an
offset layout with far copies. -/
theorem raid10_sound_iff (mddev mddev' : Mddev) (conf : Conf) (admitted : run mddev = .ok (conf, mddev')) :
    Sound conf (raid10Size mddev' conf 0 0) ↔
      NoWrap conf ((mddev.devSectors >>> conf.chunkShift) / conf.farCopies) := by
  obtain ⟨geometry, size⟩ := run_geometry admitted
  rw [size]
  exact ⟨fun sound => not_not.mp fun wrap => not_sound_of_wrap geometry wrap sound, sound_of_noWrap geometry⟩

/-- A small array: 64 KiB devices in chunks of 8 sectors. -/
def smallArray (layout raidDisks : Nat) : Mddev := ⟨8, layout, raidDisks, 128, by decide⟩

/-- Two near copies on five devices. -/
theorem raid10_sound_iff_near :
    ∃ conf mddev', run (smallArray 0x102 5) = .ok (conf, mddev') ∧
      (Sound conf (raid10Size mddev' conf 0 0) ↔
        NoWrap conf (((smallArray 0x102 5).devSectors >>> conf.chunkShift) / conf.farCopies)) :=
  ⟨(setGeometry (smallArray 0x102 5) 2 1 false).1, (setGeometry (smallArray 0x102 5) 2 1 false).2, rfl,
    raid10_sound_iff (smallArray 0x102 5) _ _ rfl⟩

/-- Two near and two far copies on five devices, in an offset layout: the second copy of chunk 2 is where
the far copy of the second copy of chunk 1 is. -/
theorem raid10_offset_shares :
    ∃ conf mddev', run (smallArray 0x10202 5) = .ok (conf, mddev') ∧ 16 < raid10Size mddev' conf 0 0 ∧
      (⟨0, 8⟩ : Position) ∈ raid10FindPhys conf 8 ∧ (⟨0, 8⟩ : Position) ∈ raid10FindPhys conf 16 ∧
      raid10FindVirt conf 8 0 = some 8 :=
  ⟨(setGeometry (smallArray 0x10202 5) 2 2 true).1, (setGeometry (smallArray 0x10202 5) 2 2 true).2, rfl,
    by decide, by decide, by decide, by decide⟩

end LinuxKernel.Drivers.Raid10
