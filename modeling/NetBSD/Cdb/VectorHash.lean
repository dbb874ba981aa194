import Mathlib.Data.List.Basic
import Mathlib.Data.UInt

/-!
Owns `mi_vector_hash` of `common/lib/libc/stdlib`. Each line of its `mix` can be undone, so that
some key of twelve bytes has any three words as its hash.
-/

namespace NetBSD.Cdb

/-- A number with its lowest byte first. -/
def littleEndian : List UInt8 → Nat
  | [] => 0
  | byte :: bytes => byte.toNat + 256 * littleEndian bytes

def le32dec (buf : List UInt8) (pos : Nat) : Nat := littleEndian ((buf.drop pos).take 4)

abbrev Hashes := UInt32 × UInt32 × UInt32

section Hash

def mix (a b c : UInt32) : Hashes :=
  let a := (a - b - c) ^^^ (c >>> 13)
  let b := (b - c - a) ^^^ (a <<< 8)
  let c := (c - a - b) ^^^ (b >>> 13)
  let a := (a - b - c) ^^^ (c >>> 12)
  let b := (b - c - a) ^^^ (a <<< 16)
  let c := (c - a - b) ^^^ (b >>> 5)
  let a := (a - b - c) ^^^ (c >>> 3)
  let b := (b - c - a) ^^^ (a <<< 10)
  let c := (c - a - b) ^^^ (b >>> 15)
  (a, b, c)

def fixedSeed : UInt32 := 0x9e3779b9

/-- A word of a key; bytes behind the key count as 0, which is what the tail of the loop over bytes
and the masks of the loop over words make of them. -/
def keyWord (key : List UInt8) (pos : Nat) : UInt32 := .ofNat (le32dec key pos)

/-- The loop over so many blocks of twelve bytes, with what is left of the key. -/
def hashLoop : Nat → List UInt8 → Hashes → List UInt8 × Hashes
  | 0, key, hashes => (key, hashes)
  | blocks + 1, key, (a, b, c) =>
    hashLoop blocks (key.drop 12) (mix (a + keyWord key 0) (b + keyWord key 4) (c + keyWord key 8))

def miVectorHash (key : List UInt8) (seed : UInt32) : Hashes :=
  let (tail, a, b, c) := hashLoop (key.length / 12) key (fixedSeed, fixedSeed, seed)
  let c := c + .ofNat key.length
  if tail.length > 8 then
    mix (a + keyWord tail 0) (b + keyWord tail 4) (c + keyWord tail 8 <<< 8)
  else if tail.length > 4 then mix (a + keyWord tail 0) (b + keyWord tail 4) c
  else mix (a + keyWord tail 0) b c

end Hash

section Surjective

theorem exists_line (s' y z word : UInt32) : ∃ x, (x - y - z) ^^^ word = s' := by
  refine ⟨(s' ^^^ word) + z + y, ?_⟩
  rw [UInt32.add_sub_cancel, UInt32.add_sub_cancel, UInt32.xor_assoc, UInt32.xor_self,
    UInt32.xor_zero]

theorem mix_surjective (hashes : Hashes) : ∃ a b c, mix a b c = hashes := by
  obtain ⟨a₃, b₃, c₃⟩ := hashes
  obtain ⟨c₂, isC₃⟩ := exists_line c₃ a₃ b₃ (b₃ >>> 15)
  obtain ⟨b₂, isB₃⟩ := exists_line b₃ c₂ a₃ (a₃ <<< 10)
  obtain ⟨a₂, isA₃⟩ := exists_line a₃ b₂ c₂ (c₂ >>> 3)
  obtain ⟨c₁, isC₂⟩ := exists_line c₂ a₂ b₂ (b₂ >>> 5)
  obtain ⟨b₁, isB₂⟩ := exists_line b₂ c₁ a₂ (a₂ <<< 16)
  obtain ⟨a₁, isA₂⟩ := exists_line a₂ b₁ c₁ (c₁ >>> 12)
  obtain ⟨c, isC₁⟩ := exists_line c₁ a₁ b₁ (b₁ >>> 13)
  obtain ⟨b, isB₁⟩ := exists_line b₁ c a₁ (a₁ <<< 8)
  obtain ⟨a, isA₁⟩ := exists_line a₁ b c (c >>> 13)
  refine ⟨a, b, c, ?_⟩
  unfold mix
  dsimp only
  rw [isA₁, isB₁, isC₁, isA₂, isB₂, isC₂, isA₃, isB₃, isC₃]

def wordBytes (word : UInt32) : List UInt8 :=
  [word.toUInt8, (word >>> 8).toUInt8, (word >>> 16).toUInt8, (word >>> 24).toUInt8]

theorem littleEndian_wordBytes (word : UInt32) : littleEndian (wordBytes word) = word.toNat := by
  have sml := word.toNat_lt
  have byte (n : Nat) (lt : n < 32) : (word >>> .ofNat n).toUInt8.toNat = word.toNat / 2 ^ n % 256 := by
    have isN : n % 2 ^ 32 % 32 = n := by omega
    rw [UInt32.toNat_toUInt8, UInt32.toNat_shiftRight, UInt32.toNat_ofNat', isN,
      Nat.shiftRight_eq_div_pow]
  have one : (word >>> 8).toUInt8.toNat = word.toNat / 2 ^ 8 % 256 := byte 8 (by decide)
  have two : (word >>> 16).toUInt8.toNat = word.toNat / 2 ^ 16 % 256 := byte 16 (by decide)
  have three : (word >>> 24).toUInt8.toNat = word.toNat / 2 ^ 24 % 256 := byte 24 (by decide)
  simp only [wordBytes, littleEndian, one, two, three, UInt32.toNat_toUInt8]
  omega

theorem keyWord_wordBytes (pre tl : List UInt8) (word : UInt32) :
    keyWord (pre ++ (wordBytes word ++ tl)) pre.length = word := by
  have short : (wordBytes word ++ tl).take 4 = wordBytes word := rfl
  rw [keyWord, le32dec, List.drop_left, short, littleEndian_wordBytes, UInt32.ofNat_toNat]

/-- Any three words are the hash of a key of twelve bytes. -/
theorem miVectorHash_surjective (seed : UInt32) (hashes : Hashes) :
    ∃ key, miVectorHash key seed = hashes := by
  obtain ⟨a, b, c, last⟩ := mix_surjective hashes
  obtain ⟨a₀, b₀, c₀, fst⟩ := mix_surjective (a, b, c - 12)
  have words (x y z : UInt32) : miVectorHash (wordBytes x ++ (wordBytes y ++ wordBytes z)) seed =
      let (a, b, c) := mix (fixedSeed + x) (fixedSeed + y) (seed + z)
      mix (a + 0) b (c + 12) := by
    obtain ⟨key, isKey⟩ : ∃ key, wordBytes x ++ (wordBytes y ++ wordBytes z) = key := ⟨_, rfl⟩
    have isX : keyWord key 0 = x := isKey ▸ keyWord_wordBytes [] (wordBytes y ++ wordBytes z) x
    have isY : keyWord key 4 = y := isKey ▸ keyWord_wordBytes (wordBytes x) (wordBytes z) y
    have isZ : keyWord key 8 = z := by
      have third := keyWord_wordBytes (wordBytes x ++ wordBytes y) [] z
      rwa [List.append_nil, List.append_assoc, isKey] at third
    have hash : miVectorHash key seed =
        let (a, b, c) := mix (fixedSeed + keyWord key 0) (fixedSeed + keyWord key 4)
          (seed + keyWord key 8)
        mix (a + 0) b (c + 12) := by
      have len : key.length = 12 := isKey ▸ rfl
      unfold miVectorHash
      rw [len, ← isKey]
      rfl
    rw [isKey, hash, isX, isY, isZ]
  refine ⟨_, (words (a₀ - fixedSeed) (b₀ - fixedSeed) (c₀ - seed)).trans ?_⟩
  rw [UInt32.add_comm, UInt32.sub_add_cancel, UInt32.add_comm fixedSeed, UInt32.sub_add_cancel,
    UInt32.add_comm, UInt32.sub_add_cancel, fst]
  dsimp only
  rw [UInt32.add_zero, UInt32.sub_add_cancel, last]

end Surjective

end NetBSD.Cdb
