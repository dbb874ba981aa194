import Mathlib.Data.Nat.Bitwise

/-!
Owns `ffs_mapsearch`: the scan of a free map with the fragment tables, from any byte and around, and
the sifting of the byte that it stops at.
-/

namespace NetBSD.Ufs

open List

section Model

def around : List Nat := [0x3, 0x7, 0xf, 0x1f, 0x3f, 0x7f, 0xff, 0x1ff, 0x3ff]

def inside : List Nat := [0x0, 0x2, 0x6, 0xe, 0x1e, 0x3e, 0x7e, 0xfe, 0x1fe]

/-- The rows of the table, of eight bytes each. -/
def fragtbl124 : List Nat := [
  0x0016162a1616264e, 0x1616163e2a3e4e8a,
  0x1616163e1616365e, 0x1616163e3e3e5e9e,
  0x1616163e1616365e, 0x1616163e3e3e5e9e,
  0x2a3e3e2a3e3e2e6e, 0x3e3e3e3e2a3e6eaa,
  0x1616163e1616365e, 0x1616163e3e3e5e9e,
  0x1616163e1616365e, 0x1616163e3e3e5e9e,
  0x2636362e3636266e, 0x3636363e2e3e6eae,
  0x4e5e5e6e5e5e6e4e, 0x5e5e5e7e6e7e4ece,
  0x1616163e1616365e, 0x1616163e3e3e5e9e,
  0x1616163e1616365e, 0x1616163e3e3e5e9e,
  0x1616163e1616365e, 0x1616163e3e3e5e9e,
  0x3e3e3e3e3e3e3e7e, 0x3e3e3e3e3e3e7ebe,
  0x2a3e3e2a3e3e2e6e, 0x3e3e3e3e2a3e6eaa,
  0x3e3e3e3e3e3e3e7e, 0x3e3e3e3e3e3e7ebe,
  0x4e5e5e6e5e5e6e4e, 0x5e5e5e7e6e7e4ece,
  0x8a9e9eaa9e9eaece, 0x9e9e9ebeaabece8a]

def fragtbl8 : List Nat := [
  0x0001010201010204, 0x0101010302030408,
  0x0101010301010305, 0x0203030204050810,
  0x0101010301010305, 0x0101010303030509,
  0x0203030203030206, 0x0405050608091020,
  0x0101010301010305, 0x0101010303030509,
  0x0101010301010305, 0x0303030305050911,
  0x0203030203030206, 0x030303030203060a,
  0x0405050605050604, 0x0809090a10112040,
  0x0101010301010305, 0x0101010303030509,
  0x0101010301010305, 0x0303030305050911,
  0x0101010301010305, 0x0101010303030509,
  0x0303030303030307, 0x0505050709091121,
  0x0203030203030206, 0x030303030203060a,
  0x0303030303030307, 0x0203030206070a12,
  0x0405050605050604, 0x050505070607040c,
  0x0809090a09090a0c, 0x1011111220214080]

def fragtbl (fs_frag byte : Nat) : Nat :=
  ((if fs_frag = 8 then fragtbl8 else fragtbl124).getD (byte / 8) 0 >>> (8 * (7 - byte % 8))) % 256

/-- The bytes that are left from the first one on whose entry meets the mask. -/
def scanc (cp : List UInt8) (table : Nat → Nat) (mask : Nat) : Nat :=
  (cp.dropWhile fun byte => table byte.toNat &&& mask = 0).length

def blkmap (fs_frag byte loc : Nat) : Nat := (byte >>> loc) &&& (0xff >>> (8 - fs_frag))

/-- The loop over the places of a block. -/
def siftBlock (fs_frag blk allocsiz : Nat) : Option Nat :=
  (List.range (fs_frag - allocsiz + 1)).find? fun pos =>
    (blk <<< 1) &&& (around.getD allocsiz 0 <<< pos) = inside.getD allocsiz 0 <<< pos

/-- The loop over the blocks of a byte. -/
def sift (fs_frag byte allocsiz : Nat) : Option Nat :=
  (List.range (8 / fs_frag)).findSome? fun k =>
    (siftBlock fs_frag (blkmap fs_frag byte (k * fs_frag)) allocsiz).map (k * fs_frag + ·)

structure Cg where
  cg_frotor : Nat
  cg_frsum : List Nat
  cs_nbfree : Nat
  blksfree : List UInt8

/-- The byte that the scan from `start` on finds, or the one from the first byte on. -/
def scanAround (blksfree : List UInt8) (table : Nat → Nat) (mask start len : Nat) : Option Nat :=
  let loc := scanc ((blksfree.drop start).take len) table mask
  if loc = 0 then
    let len := start + 1
    let loc := scanc (blksfree.take len) table mask
    if loc = 0 then none else some (len - loc)
  else some (start + len - loc)

/-- The fragment that is found, and the group with its rotor; `none` is a panic. -/
def ffsMapsearch (fs_frag fs_fpg : Nat) (cgp : Cg) (bpref allocsiz : Nat) : Option (Nat × Cg) :=
  let start := (if bpref ≠ 0 then bpref % fs_fpg else cgp.cg_frotor) / 8
  let len := (fs_fpg + 7) / 8 - start
  (scanAround cgp.blksfree (fragtbl fs_frag) (1 <<< (allocsiz - 1 + fs_frag % 8)) start len).bind
    fun byte =>
      let bno := byte * 8
      (sift fs_frag (cgp.blksfree.getD (bno / 8) 0).toNat allocsiz).map
        fun pos => (bno + pos, { cgp with cg_frotor := bno })

end Model

section Runs

/-- A run of exactly `size` free fragments from `n` on, inside one block. -/
def MaximalRun (free : Nat → Bool) (frag size n : Nat) : Prop :=
  n % frag + size ≤ frag ∧ (∀ k < size, free (n + k)) ∧ (n % frag = 0 ∨ ¬free (n - 1)) ∧
    (n % frag + size = frag ∨ ¬free (n + size))

instance (free : Nat → Bool) (frag size n : Nat) : Decidable (MaximalRun free frag size n) :=
  inferInstanceAs (Decidable (_ ∧ _ ∧ _ ∧ _))

def isset (map : List UInt8) (n : Nat) : Bool := (map.getD (n / 8) 0).toNat.testBit (n % 8)

/-- The sums of the group count the runs of its map. -/
structure Consistent (fs_frag fs_fpg : Nat) (cgp : Cg) : Prop where
  map_length : cgp.blksfree.length = (fs_fpg + 7) / 8
  beyond_clear : ∀ n < 8 * cgp.blksfree.length, isset cgp.blksfree n → n < fs_fpg
  frotor_lt : cgp.cg_frotor < fs_fpg
  sum_eq : ∀ size ≤ fs_frag, 0 < size →
    (if size = fs_frag then cgp.cs_nbfree else cgp.cg_frsum.getD size 0) =
      (List.range fs_fpg).countP fun n => MaximalRun (isset cgp.blksfree) fs_frag size n

end Runs

section Byte

variable {frag size n blk pos byte : Nat} {map : List UInt8}

/-- The masks compare the fragments of a run and the two places around it. -/
theorem field_iff (hsize : size ≤ 8) :
    (blk <<< 1) &&& (around.getD size 0 <<< pos) = inside.getD size 0 <<< pos ↔
      (∀ k < size, blk.testBit (pos + k)) ∧ (pos = 0 ∨ ¬blk.testBit (pos - 1)) ∧
        ¬blk.testBit (pos + size) := by
  obtain ⟨haround, hinside⟩ : around.getD size 0 = 2 ^ (size + 2) - 1 ∧
      inside.getD size 0 = (2 ^ size - 1) <<< 1 := by
    revert size
    decide
  have hbit (i : Nat) : ((blk <<< 1) &&& (around.getD size 0 <<< pos)).testBit i =
      (inside.getD size 0 <<< pos).testBit i ↔ ((1 ≤ i ∧ blk.testBit (i - 1)) ∧ pos ≤ i ∧
        i - pos < size + 2 ↔ pos ≤ i ∧ 1 ≤ i - pos ∧ i - pos - 1 < size) := by
    rw [haround, hinside, Bool.eq_iff_iff]
    simp
  constructor
  · intro heq
    replace hbit (i : Nat) := (hbit i).mp (congrArg (Nat.testBit · i) heq)
    refine ⟨fun k hk => ?_, or_iff_not_imp_left.mpr fun hpos hfree => ?_, fun hfree => ?_⟩
    · exact ((hbit (pos + k + 1)).mpr (by omega)).1.2
    · have := (hbit pos).mp ⟨⟨by omega, hfree⟩, by omega⟩
      omega
    · have := (hbit (pos + size + 1)).mp ⟨⟨by omega, hfree⟩, by omega⟩
      omega
  · rintro ⟨hfree, hfirst, hlast⟩
    refine Nat.eq_of_testBit_eq fun i => (hbit i).mpr ⟨?_, ?_⟩
    · rintro ⟨⟨hi, hset⟩, hpos, hlt⟩
      have hne : i ≠ pos := by
        rintro rfl
        exact hfirst.elim (by omega) (· hset)
      have hend : i - 1 ≠ pos + size := fun h => hlast (h ▸ hset)
      omega
    · rintro ⟨hpos, hone, hlt⟩
      have hset := hfree _ hlt
      rw [show pos + (i - pos - 1) = i - 1 by omega] at hset
      exact ⟨⟨by omega, hset⟩, by omega⟩

variable (hfrag : frag ∈ [1, 2, 4, 8])
include hfrag

theorem testBit_blkmap (i : Nat) :
    (blkmap frag byte n).testBit i ↔ i < frag ∧ byte.testBit (n + i) := by
  have hmask : 0xff >>> (8 - frag) = 2 ^ frag - 1 := by
    revert frag
    decide
  simp [blkmap, hmask]

theorem field_blkmap_iff (hsize : 0 < size) (hin : pos + size ≤ frag) (k : Nat) :
    (blkmap frag byte (k * frag) <<< 1) &&& (around.getD size 0 <<< pos) =
      inside.getD size 0 <<< pos ↔ MaximalRun byte.testBit frag size (k * frag + pos) := by
  have hle : frag ≤ 8 := (by decide : ∀ frag ∈ [1, 2, 4, 8], frag ≤ 8) _ hfrag
  have hmod : (k * frag + pos) % frag = pos := by
    rw [Nat.mul_add_mod', Nat.mod_eq_of_lt (by omega)]
  rw [field_iff (by omega), MaximalRun, hmod, and_iff_right hin]
  simp only [testBit_blkmap hfrag, ← add_assoc]
  refine and_congr ?_ (and_congr ?_ ?_)
  · exact forall₂_congr fun j hj => and_iff_right (by omega)
  · refine or_congr_right' fun hpos => ?_
    rw [and_iff_right (by omega), Nat.add_sub_assoc (by omega)]
  · rw [not_and_or, not_lt]
    exact or_congr_left (by omega)

theorem sift_spec (hsize : 0 < size) (hle : size ≤ frag) (hsift : sift frag byte size = some n) :
    n < 8 ∧ MaximalRun byte.testBit frag size n := by
  obtain ⟨k, hk, hmap⟩ := exists_of_findSome?_eq_some hsift
  obtain ⟨pos, hblk, rfl⟩ := Option.map_eq_some_iff.mp hmap
  have hpos := mem_range.mp (mem_of_find?_eq_some hblk)
  have hfield := find?_some hblk
  have hroom := (Nat.le_div_iff_mul_le (by omega)).mp (mem_range.mp hk)
  rw [Nat.succ_mul] at hroom
  exact ⟨by omega, (field_blkmap_iff hfrag hsize (by omega) k).mp (of_decide_eq_true hfield)⟩

theorem sift_isSome (hsize : 0 < size) (hn : n < 8) (hrun : MaximalRun byte.testBit frag size n) :
    (sift frag byte size).isSome := by
  have hdvd : frag ∣ 8 := (by decide : ∀ frag ∈ [1, 2, 4, 8], frag ∣ 8) _ hfrag
  have hin := hrun.1
  rw [sift, findSome?_isSome_iff]
  refine ⟨n / frag, mem_range.mpr (Nat.div_lt_div_of_lt_of_dvd hdvd hn), ?_⟩
  rw [Option.isSome_map, siftBlock, find?_isSome]
  refine ⟨n % frag, mem_range.mpr (by omega), decide_eq_true ?_⟩
  rwa [field_blkmap_iff hfrag hsize hin, Nat.div_add_mod']

omit hfrag in
/-- The entry of a byte meets the mask of a size when the sifting finds a run of it there. -/
private theorem table_iff : ∀ frag ∈ [1, 2, 4, 8], ∀ size ≤ frag, 0 < size → ∀ byte < 256,
    fragtbl frag byte &&& 1 <<< (size - 1 + frag % 8) ≠ 0 ↔ (sift frag byte size).isSome := by
  decide +kernel

/-- No block goes over the end of a byte. -/
theorem maximalRun_byte : MaximalRun (isset map) frag size n ↔
    MaximalRun (map.getD (n / 8) 0).toNat.testBit frag size (n % 8) := by
  have hget : ∀ m j, m / 8 = n / 8 → m % 8 = j →
      isset map m = (map.getD (n / 8) 0).toNat.testBit j := by
    rintro m _ hdiv rfl
    rw [isset, hdiv]
  have hcases : frag = 1 ∨ frag = 2 ∨ frag = 4 ∨ frag = 8 := by simpa using hfrag
  have hmod : n % 8 % frag = n % frag := by
    rcases hcases with rfl | rfl | rfl | rfl <;> omega
  unfold MaximalRun
  rw [hmod]
  refine and_congr_right fun hin => and_congr ?_ (and_congr ?_ ?_)
  · refine forall₂_congr fun k hk => ?_
    rw [hget _ (n % 8 + k)] <;> rcases hcases with rfl | rfl | rfl | rfl <;> omega
  · refine or_congr_right' fun hfirst => ?_
    rw [hget _ (n % 8 - 1)] <;> rcases hcases with rfl | rfl | rfl | rfl <;> omega
  · refine or_congr_right' fun hlast => ?_
    rw [hget _ (n % 8 + size)] <;> rcases hcases with rfl | rfl | rfl | rfl <;> omega

end Byte

section Scan

variable {map : List UInt8} {table : Nat → Nat} {mask beg i : Nat}

theorem scanc_cases (cp : List UInt8) (table : Nat → Nat) (mask : Nat) :
    (scanc cp table mask = 0 ∧ ∀ byte ∈ cp, table byte.toNat &&& mask = 0) ∨
    (scanc cp table mask ≠ 0 ∧ scanc cp table mask ≤ cp.length ∧
      table (cp.getD (cp.length - scanc cp table mask) 0).toNat &&& mask ≠ 0) := by
  induction cp with
  | nil => exact .inl ⟨rfl, by simp⟩
  | cons byte tl ih =>
    by_cases hmiss : table byte.toNat &&& mask = 0
    · have hstep : scanc (byte :: tl) table mask = scanc tl table mask := by
        simp [scanc, hmiss]
      rw [hstep]
      rcases ih with ⟨hnone, hrest⟩ | ⟨hsome, hle, hhit⟩
      · exact .inl ⟨hnone, by simpa [hmiss] using hrest⟩
      · refine .inr ⟨hsome, Nat.le_succ_of_le hle, ?_⟩
        rwa [length_cons, Nat.succ_sub hle, getD_cons_succ]
    · right
      simp [scanc, hmiss]

/-- A scan from any byte of the map stops at one whose entry meets the mask, when there is one. -/
theorem scanAround_hit (hstart : beg < map.length) (hi : i < map.length)
    (hhit : table (map.getD i 0).toNat &&& mask ≠ 0) :
    ∃ byte < map.length, scanAround map table mask beg (map.length - beg) = some byte ∧
      table (map.getD byte 0).toNat &&& mask ≠ 0 := by
  have hall : (map.drop beg).take (map.length - beg) = map.drop beg :=
    take_of_length_le (by simp)
  simp only [scanAround, hall]
  rcases scanc_cases (map.drop beg) table mask with ⟨hloc, hnone⟩ | ⟨hloc, hle, hfound⟩
  · rw [if_pos hloc]
    rcases scanc_cases (map.take (beg + 1)) table mask with
      ⟨_, hnone'⟩ | ⟨hloc', hle', hfound'⟩
    · have hmem : map[i] ∈ map.take (beg + 1) ++ map.drop (beg + 1) := by simp
      rw [getD_eq_getElem _ _ hi] at hhit
      rcases mem_append.mp hmem with hmem | hmem
      · exact absurd (hnone' _ hmem) hhit
      · exact absurd (hnone _ (drop_subset_drop_left map (Nat.le_succ beg) hmem)) hhit
    · have hlen : (map.take (beg + 1)).length = beg + 1 := by simp; omega
      rw [hlen] at hle' hfound'
      refine ⟨_, ?_, if_neg hloc', ?_⟩
      · omega
      · rwa [getD_eq_getElem?_getD, getElem?_take_of_lt (by omega)] at hfound'
  · rw [if_neg hloc]
    rw [length_drop] at hle hfound
    refine ⟨_, ?_, rfl, ?_⟩
    · omega
    · rwa [getD_eq_getElem?_getD, getElem?_drop, ← Nat.add_sub_assoc hle] at hfound

end Scan

section Search

variable {fs_frag fs_fpg allocsiz bpref : Nat} {cgp : Cg}

/-- The search answers a maximal run of `allocsiz` fragments, wherever it starts. -/
theorem ffsMapsearch_finds (hfrag : fs_frag ∈ [1, 2, 4, 8]) (hcg : Consistent fs_frag fs_fpg cgp)
    (hpos : 0 < allocsiz) (hsiz : allocsiz ≤ fs_frag)
    (hsum : 0 < if allocsiz = fs_frag then cgp.cs_nbfree else cgp.cg_frsum.getD allocsiz 0) :
    ∃ n cgp', ffsMapsearch fs_frag fs_fpg cgp bpref allocsiz = some (n, cgp') ∧ n < fs_fpg ∧
      MaximalRun (isset cgp.blksfree) fs_frag allocsiz n := by
  rw [hcg.sum_eq _ hsiz hpos] at hsum
  obtain ⟨n, hn, hrun⟩ := countP_pos_iff.mp hsum
  have hn := mem_range.mp hn
  have htable (byte : UInt8) := table_iff _ hfrag _ hsiz hpos _ byte.toNat_lt
  have hhit := (htable _).mpr (sift_isSome hfrag hpos (Nat.mod_lt n (by decide))
    ((maximalRun_byte hfrag).mp (of_decide_eq_true hrun)))
  have hlen := hcg.map_length
  have hstart : (if bpref ≠ 0 then bpref % fs_fpg else cgp.cg_frotor) / 8 <
      cgp.blksfree.length := by
    have := Nat.mod_lt bpref (Nat.zero_lt_of_lt hn)
    have := hcg.frotor_lt
    split <;> omega
  obtain ⟨byte, hbyte, hscan, hfound⟩ := scanAround_hit hstart (by omega) hhit
  obtain ⟨pos, hsift⟩ := Option.isSome_iff_exists.mp ((htable _).mp hfound)
  obtain ⟨hlt, hfree⟩ := sift_spec hfrag hpos hsiz hsift
  have hdiv : (byte * 8 + pos) / 8 = byte := by omega
  have hmod : (byte * 8 + pos) % 8 = pos := by omega
  have hmax : MaximalRun (isset cgp.blksfree) fs_frag allocsiz (byte * 8 + pos) := by
    rwa [maximalRun_byte hfrag, hdiv, hmod]
  have hlt' := hcg.beyond_clear _ (by omega) (hmax.2.1 0 hpos)
  refine ⟨byte * 8 + pos, { cgp with cg_frotor := byte * 8 }, ?_, hlt', hmax⟩
  simp only [ffsMapsearch, ← hlen, hscan, Option.bind_some]
  rw [Nat.mul_div_cancel _ (by decide), hsift]
  rfl

/-- Three free fragments in the middle of a block. -/
theorem ffsMapsearch_finds_three : ∃ n cgp', ffsMapsearch 8 16 ⟨8, [0, 0, 0, 1], 0, [0x1c, 0]⟩ 0 3 =
    some (n, cgp') ∧ n < 16 ∧ MaximalRun (isset [0x1c, 0]) 8 3 n :=
  ffsMapsearch_finds (by decide) ⟨by decide, by decide, by decide, by decide⟩ (by decide)
    (by decide) (by decide)

end Search

end NetBSD.Ufs
