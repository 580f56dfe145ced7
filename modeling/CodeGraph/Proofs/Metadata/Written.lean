import CodeGraph.Proofs.Parse.Identity
import Mathlib.Algebra.Group.Int.Defs
import Mathlib.Algebra.Group.Nat.Defs

namespace CodeGraph.Metadata

/-!
# Numbers that are read back

A number is read back from the bytes that it is written as, and what stands behind them is left. A compressed
number is written in the fewest of 7, 14 and 29 bits that hold it. A signed one is turned left by one bit
within its bits before, so that its sign comes last.
-/

namespace ByteReader

variable {α β : Type} {r : ByteReader α} {s rest : Bytes}

theorem bind_eq {a : α} (h : r s = some (a, rest)) (f : α → ByteReader β) : (r >>= f) s = f a rest := by
  change (r s).bind (fun p => f p.1 p.2) = f a rest
  rw [h, Option.bind_some]

theorem bind_eq_some_iff {f : α → ByteReader β} {b : β} :
    (r >>= f) s = some (b, rest) ↔ ∃ a more, r s = some (a, more) ∧ f a more = some (b, rest) := by
  change (r s).bind (fun p => f p.1 p.2) = some (b, rest) ↔ _
  simp [Option.bind_eq_some_iff]

theorem map_eq {a : α} (h : r s = some (a, rest)) (f : α → β) : (do return f (← r)) s = some (f a, rest) :=
  bind_eq h _

theorem hasMore_append {l : Bytes} (h : l ≠ []) (rest : Bytes) : hasMore (l ++ rest) = some (true, l ++ rest) := by
  simp [hasMore, h]

/-! ## Numbers of fixed width -/

theorem little_succ (width n : Nat) :
    Plain.little (width + 1) n = .ofNat n :: Plain.little width (n / 256) := by
  rw [Plain.little, List.range_succ_eq_map, List.map_cons, List.map_map, Plain.little]
  congr 1
  · rw [Nat.pow_eq, Nat.pow_zero, Nat.div_one]
  · refine List.map_congr_left fun i _ => congrArg UInt8.ofNat ?_
    rw [Nat.pow_eq, Nat.pow_eq, Nat.div_div_eq_div_mul, Nat.pow_succ, Nat.mul_comm]

theorem length_little (width n : Nat) : (Plain.little width n).length = width := by
  simp [Plain.little]

theorem number_little {width n : Nat} (h : n < 256 ^ width) (rest : Bytes) :
    number width (Plain.little width n ++ rest) = some (n, rest) := by
  induction width generalizing n with
  | zero =>
      obtain rfl : n = 0 := by simpa using h
      rfl
  | succ width ih =>
      have hmore : n / 256 < 256 ^ width := by
        rw [Nat.div_lt_iff_lt_mul (by decide), ← Nat.pow_succ]
        exact h
      have hfirst : byte (Plain.little (width + 1) n ++ rest) =
          some (n % 256, Plain.little width (n / 256) ++ rest) := by
        rw [little_succ]
        exact congrArg (fun low => some (low, _)) UInt8.toNat_ofNat'
      rw [number, bind_eq hfirst, map_eq (ih hmore), Nat.mod_add_div]

theorem skip_append {l : Bytes} {n : Nat} (h : l.length = n) (rest : Bytes) :
    skip n (l ++ rest) = some ((), rest) := by
  have hbytes : bytes n (l ++ rest) = some (l, rest) := by simp [bytes, ← h]
  exact bind_eq hbytes _

/-! ## Compressed numbers -/

/-- A number in so many bits, which are 7, 14 or 29. -/
def compressedIn (width n : Nat) : Bytes :=
  if width = 7 then [.ofNat n]
  else if width = 14 then [.ofNat (0x80 + n / 0x100), .ofNat n]
  else [.ofNat (0xC0 + n / 0x1000000), .ofNat (n / 0x10000), .ofNat (n / 0x100), .ofNat n]

theorem compressedIn_ne_nil (width n : Nat) : compressedIn width n ≠ [] := by
  unfold compressedIn
  split <;> [skip; split] <;> exact List.cons_ne_nil _ _

theorem compressedWithWidth_written {width n : Nat} (hwidth : width ∈ [7, 14, 29]) (h : n < 2 ^ width)
    (rest : Bytes) :
    compressedWithWidth (compressedIn width n ++ rest) = some ((n, width), rest) := by
  have hbyte : ∀ (m : Nat) (more : Bytes), byte (.ofNat m :: more) = some (m % 256, more) :=
    fun m more => congrArg (fun low => some (low, more)) UInt8.toNat_ofNat'
  simp only [List.mem_cons, List.not_mem_nil, or_false] at hwidth
  rcases hwidth with rfl | rfl | rfl
  · have hn : n % 256 = n := by omega
    have hshort : n < 0x80 := h
    change compressedWithWidth (.ofNat n :: rest) = _
    rw [compressedWithWidth, bind_eq (hbyte n rest), hn, if_pos hshort]
    rfl
  · change compressedWithWidth (.ofNat (0x80 + n / 0x100) :: .ofNat n :: rest) = _
    rw [compressedWithWidth, bind_eq (hbyte _ _), if_neg (by omega), if_pos (by omega),
      map_eq (hbyte _ _) fun b => (_, 14)]
    congr 3
    omega
  · change compressedWithWidth (.ofNat (0xC0 + n / 0x1000000) :: .ofNat (n / 0x10000) ::
      .ofNat (n / 0x100) :: .ofNat n :: rest) = _
    rw [compressedWithWidth, bind_eq (hbyte _ _), if_neg (by omega), if_neg (by omega), if_pos (by omega),
      bind_eq (hbyte _ _), bind_eq (hbyte _ _), map_eq (hbyte _ _) fun d => (_, 29)]
    congr 3
    omega

/-- The fewest bits that hold a number. -/
def bitsOf (n : Nat) : Nat :=
  if n < 2 ^ 7 then 7 else if n < 2 ^ 14 then 14 else 29

def compressedBytes (n : Nat) : Bytes :=
  compressedIn (bitsOf n) n

theorem compressedBytes_ne_nil (n : Nat) : compressedBytes n ≠ [] :=
  compressedIn_ne_nil _ _

theorem bitsOf_mem (n : Nat) : bitsOf n ∈ [7, 14, 29] := by
  unfold bitsOf
  split <;> [skip; split] <;> simp

theorem lt_bitsOf {n : Nat} (h : n < 2 ^ 29) : n < 2 ^ bitsOf n := by
  unfold bitsOf
  split <;> [skip; split] <;> assumption

theorem compressed_written {n : Nat} (h : n < 2 ^ 29) (rest : Bytes) :
    compressed (compressedBytes n ++ rest) = some (n, rest) :=
  map_eq (compressedWithWidth_written (bitsOf_mem n) (lt_bitsOf h) rest) (·.1)

/-! ## Signed numbers -/

/-- The fewest bits that hold a number and its sign. -/
def signedBitsOf (i : Int) : Nat :=
  if -2 ^ 6 ≤ i ∧ i < 2 ^ 6 then 7 else if -2 ^ 13 ≤ i ∧ i < 2 ^ 13 then 14 else 29

/-- A number turned left by one within so many bits. -/
def turned (width : Nat) (i : Int) : Nat :=
  if 0 ≤ i then 2 * i.toNat else 2 * (i + 2 ^ (width - 1)).toNat + 1

def signedBytes (i : Int) : Bytes :=
  compressedIn (signedBitsOf i) (turned (signedBitsOf i) i)

section Turned

variable {half : Nat} {i : Int} (hlow : -2 ^ half ≤ i) (hhigh : i < 2 ^ half)
include hlow hhigh

theorem turned_lt : turned (half + 1) i < 2 ^ (half + 1) := by
  have hcast : ((2 ^ half : Nat) : Int) = 2 ^ half := by simp
  rw [turned, Nat.add_sub_cancel, Nat.pow_succ]
  split <;> omega

theorem turned_back :
    (if turned (half + 1) i % 2 = 0 then ((turned (half + 1) i / 2 : Nat) : Int)
      else Int.subNatNat (turned (half + 1) i / 2) (Nat.pow 2 half)) = i := by
  have hcast : ((2 ^ half : Nat) : Int) = 2 ^ half := by simp
  rw [turned, Nat.add_sub_cancel, Int.subNatNat_eq_coe, Nat.pow_eq]
  split <;> split <;> omega

end Turned

theorem signedBitsOf_spec {i : Int} (hlow : -2 ^ 28 ≤ i) (hhigh : i < 2 ^ 28) :
    ∃ half, signedBitsOf i = half + 1 ∧ half + 1 ∈ [7, 14, 29] ∧ -2 ^ half ≤ i ∧ i < 2 ^ half := by
  unfold signedBitsOf
  split
  · next h => exact ⟨6, rfl, by simp, h⟩
  · split
    · next h => exact ⟨13, rfl, by simp, h⟩
    · exact ⟨28, rfl, by simp, hlow, hhigh⟩

theorem compressedSigned_written {i : Int} (hlow : -2 ^ 28 ≤ i) (hhigh : i < 2 ^ 28) (rest : Bytes) :
    compressedSigned (signedBytes i ++ rest) = some (i, rest) := by
  obtain ⟨half, hbits, hwidth, hlow, hhigh⟩ := signedBitsOf_spec hlow hhigh
  rw [signedBytes, hbits, compressedSigned,
    bind_eq (compressedWithWidth_written hwidth (turned_lt hlow hhigh) rest)]
  conv => rhs; rw [← turned_back hlow hhigh]
  dsimp only [Nat.add_sub_cancel]
  split <;> rfl

end ByteReader

end CodeGraph.Metadata
