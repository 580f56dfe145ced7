import CodeGraph.Text.Utf8
import Mathlib.Data.List.TakeWhile
import Mathlib.Tactic.SplitIfs

namespace CodeGraph.Text

/-!
# Characters from their bytes

The bytes that encode a text are decoded to its characters.
-/

theorem length_le_length_flatMap {α β : Type} {f : α → List β} {l : List α} (h : ∀ a ∈ l, f a ≠ []) :
    l.length ≤ (l.flatMap f).length := by
  induction l with
  | nil => exact Nat.zero_le _
  | cons a l ih =>
      obtain ⟨ha, hl⟩ := List.forall_mem_cons.mp h
      have hpos := List.length_pos_iff.mpr ha
      have hmore := ih hl
      rw [List.flatMap_cons, List.length_append, List.length_cons]
      omega

/-! ## The bytes of one character -/

variable {first : UInt8} {more : List UInt8}

theorem encodedLength_eq (b : UInt8) :
    encodedLength b =
      if b.toNat < 0x80 then 1
      else if 0xC2 ≤ b.toNat ∧ b.toNat ≤ 0xDF then 2
      else if 0xE0 ≤ b.toNat ∧ b.toNat ≤ 0xEF then 3
      else if 0xF0 ≤ b.toNat ∧ b.toNat ≤ 0xF4 then 4
      else 0 := by
  simp [encodedLength, UInt8.lt_iff_toNat_lt, UInt8.le_iff_toNat_le]

theorem isContinuation_iff (b : UInt8) : isContinuation b = true ↔ 0x80 ≤ b.toNat ∧ b.toNat ≤ 0xBF := by
  simp [isContinuation, UInt8.le_iff_toNat_le]

theorem maySecond_iff (first second : UInt8) :
    maySecond first second = true ↔
      if first.toNat = 0xE0 then 0xA0 ≤ second.toNat ∧ second.toNat ≤ 0xBF
      else if first.toNat = 0xED then 0x80 ≤ second.toNat ∧ second.toNat ≤ 0x9F
      else if first.toNat = 0xF0 then 0x90 ≤ second.toNat ∧ second.toNat ≤ 0xBF
      else if first.toNat = 0xF4 then 0x80 ≤ second.toNat ∧ second.toNat ≤ 0x8F
      else 0x80 ≤ second.toNat ∧ second.toNat ≤ 0xBF := by
  simp only [maySecond, ← UInt8.toNat_inj, UInt8.reduceToNat]
  split_ifs <;> simp [UInt8.le_iff_toNat_le, isContinuation]

/-- The bytes of one character. -/
structure Encodes (first : UInt8) (more : List UInt8) : Prop where
  length : encodedLength first = more.length + 1
  second : ∀ b ∈ more.head?, maySecond first b = true
  continues : ∀ b ∈ more.tail, isContinuation b = true

theorem Encodes.continuation_append (h : Encodes first more) (rest : List UInt8) :
    continuation first (more ++ rest) = more := by
  have hlength := h.length
  cases more with
  | nil =>
      rw [List.nil_append]
      cases rest with
      | nil => rfl
      | cons b rest => exact if_neg fun hlong => by simp [hlength] at hlong
  | cons b more =>
      have htake : (more ++ rest).take (encodedLength first - 2) = more := by
        rw [hlength, List.length_cons]
        exact List.take_left
      have hlong : 1 < encodedLength first := by
        rw [hlength, List.length_cons]
        omega
      have hwhile : more.takeWhile isContinuation = more := List.takeWhile_eq_self_iff.mpr h.continues
      rw [List.cons_append, continuation, if_pos ⟨hlong, h.second b rfl⟩, htake, hwhile]

theorem Encodes.decodeUpTo_append (h : Encodes first more) (bound : Nat) (rest : List UInt8) :
    decodeUpTo (bound + 1) (first :: (more ++ rest)) = some (charOf first more) :: decodeUpTo bound rest := by
  rw [decodeUpTo, h.continuation_append rest]
  simp [h.length]

/-! ## Encoded characters -/

theorem toNat_ofNat {n : Nat} (h : n < 256) : (UInt8.ofNat n).toNat = n := by
  rw [UInt8.toNat_ofNat', Nat.mod_eq_of_lt h]

/-- A byte that continues a character holds six bits. -/
def sixBits (n : Nat) : UInt8 :=
  .ofNat (n % 64 + 128)

theorem toNat_sixBits (n : Nat) : (sixBits n).toNat = n % 64 + 128 :=
  toNat_ofNat (by omega)

theorem isContinuation_sixBits (n : Nat) : isContinuation (sixBits n) = true := by
  rw [isContinuation_iff, toNat_sixBits]
  omega

/-- A first byte holds what is left of the number, behind the mark that tells how many bytes follow. -/
theorem encodes_one {n : Nat} (h : n ≤ 127) : Encodes (.ofNat n) [] where
  length := by
    rw [encodedLength_eq, toNat_ofNat (by omega), if_pos (by omega)]
    rfl
  second := by simp
  continues := by simp

theorem encodes_two {n : Nat} (hlow : 128 ≤ n) (h : n ≤ 2047) :
    Encodes (.ofNat (n / 64 % 32 + 192)) [sixBits n] where
  length := by
    rw [encodedLength_eq, toNat_ofNat (by omega), if_neg (by omega), if_pos (by omega)]
    rfl
  second := by
    rintro b ⟨⟩
    rw [maySecond_iff, toNat_ofNat (by omega), toNat_sixBits]
    split_ifs <;> omega
  continues := by simp

/-- Numbers that are no characters are left out by the second byte. -/
theorem encodes_three {n : Nat} (hlow : 2048 ≤ n) (h : n ≤ 65535) (hvalid : n < 0xD800 ∨ 0xDFFF < n) :
    Encodes (.ofNat (n / 4096 % 16 + 224)) [sixBits (n / 64), sixBits n] where
  length := by
    rw [encodedLength_eq, toNat_ofNat (by omega), if_neg (by omega), if_neg (by omega), if_pos (by omega)]
    rfl
  second := by
    rintro b ⟨⟩
    rw [maySecond_iff, toNat_ofNat (by omega), toNat_sixBits]
    split_ifs <;> omega
  continues := by simp [isContinuation_sixBits]

theorem encodes_four {n : Nat} (hlow : 65536 ≤ n) (h : n < 0x110000) :
    Encodes (.ofNat (n / 262144 % 8 + 240)) [sixBits (n / 4096), sixBits (n / 64), sixBits n] where
  length := by
    rw [encodedLength_eq, toNat_ofNat (by omega), if_neg (by omega), if_neg (by omega), if_neg (by omega),
      if_pos (by omega)]
    rfl
  second := by
    rintro b ⟨⟩
    rw [maySecond_iff, toNat_ofNat (by omega), toNat_sixBits]
    split_ifs <;> omega
  continues := by simp [isContinuation_sixBits]

/-- The bytes of a character are those of its number. -/
theorem exists_encodes (c : Char) :
    ∃ first more, String.utf8EncodeChar c = first :: more ∧ Encodes first more ∧ charOf first more = c := by
  have hvalid : c.toNat < 0xD800 ∨ 0xDFFF < c.toNat ∧ c.toNat < 0x110000 := c.valid
  have hchar : ∀ {first more n}, charOf first more = .ofNat n → n = c.toNat → charOf first more = c := by
    rintro first more n hn rfl
    rw [hn, Char.ofNat_toNat]
  have hbytes : String.utf8EncodeChar c =
      if c.toNat ≤ 127 then [.ofNat c.toNat]
      else if c.toNat ≤ 2047 then [.ofNat (c.toNat / 64 % 32 + 192), sixBits c.toNat]
      else if c.toNat ≤ 65535 then
        [.ofNat (c.toNat / 4096 % 16 + 224), sixBits (c.toNat / 64), sixBits c.toNat]
      else
        [.ofNat (c.toNat / 262144 % 8 + 240), sixBits (c.toNat / 4096), sixBits (c.toNat / 64),
          sixBits c.toNat] := rfl
  rw [hbytes]
  split_ifs with hone htwo hthree
  · refine ⟨_, _, rfl, encodes_one hone, hchar rfl ?_⟩
    exact toNat_ofNat (by omega)
  · refine ⟨_, _, rfl, encodes_two (by omega) htwo, hchar rfl ?_⟩
    simp only [List.foldl_cons, List.foldl_nil, List.length_cons, List.length_nil, toNat_sixBits]
    rw [toNat_ofNat (by omega)]
    omega
  · refine ⟨_, _, rfl, encodes_three (by omega) hthree (by omega), hchar rfl ?_⟩
    simp only [List.foldl_cons, List.foldl_nil, List.length_cons, List.length_nil, toNat_sixBits]
    rw [toNat_ofNat (by omega)]
    omega
  · refine ⟨_, _, rfl, encodes_four (by omega) (by omega), hchar rfl ?_⟩
    simp only [List.foldl_cons, List.foldl_nil, List.length_cons, List.length_nil, toNat_sixBits]
    rw [toNat_ofNat (by omega)]
    omega

theorem decodeUpTo_flatMap (s : List Char) {bound : Nat} (hbound : s.length ≤ bound) :
    decodeUpTo bound (s.flatMap String.utf8EncodeChar) = s.map some := by
  induction s generalizing bound with
  | nil => cases bound <;> rfl
  | cons c s ih =>
      obtain ⟨bound, rfl⟩ := Nat.exists_eq_add_one_of_ne_zero (Nat.ne_zero_of_lt hbound)
      obtain ⟨first, more, hbytes, hencodes, hchar⟩ := exists_encodes c
      rw [List.flatMap_cons, hbytes, List.cons_append, hencodes.decodeUpTo_append, hchar,
        ih (Nat.le_of_succ_le_succ hbound), List.map_cons]

theorem mapM_map_of_some {α β : Type} {f : α → β} {g : β → Option α} (h : ∀ a, g (f a) = some a) (l : List α) :
    (l.map f).mapM g = some l := by
  induction l with
  | nil => rfl
  | cons a l ih => simp [h, ih]

/-- A text is decoded from its bytes. -/
theorem ofUtf8?_toUTF8 (s : String) : ofUtf8? s.toUTF8.data.toList = some s := by
  have hbytes : s.toUTF8.data.toList = s.toList.flatMap String.utf8EncodeChar := by
    have hencode : s.toUTF8 = (s.toList.flatMap String.utf8EncodeChar).toByteArray :=
      String.utf8Encode_toList.symm
    rw [hencode, List.toList_data_toByteArray]
  have hlength : s.toList.length ≤ (s.toList.flatMap String.utf8EncodeChar).length := by
    refine length_le_length_flatMap fun c _ => ?_
    obtain ⟨first, more, hbytes, -, -⟩ := exists_encodes c
    rw [hbytes]
    exact List.cons_ne_nil first more
  have hchars : (s.toList.map some).mapM id = some s.toList :=
    mapM_map_of_some (f := some) (fun _ => rfl) s.toList
  rw [ofUtf8?, decode, hbytes, decodeUpTo_flatMap s.toList hlength, hchars, Option.map_some,
    String.ofList_toList]

end CodeGraph.Text
