import Mathlib.Data.List.Basic

/-!
# The order of texts and of their bytes

Texts are ordered by their characters, and characters by their code points. UTF-8 writes a greater
code point with greater bytes: where the bytes of two characters differ first, those of the lesser
character are less. So texts may as well be compared byte by byte.

* `Text.bytes`: the bytes of a text.
* `FirstLess`: lists that differ first where the first one is less.
* `firstLess_utf8EncodeChar`: the bytes of two characters.
* `lt_iff_bytes_lt`: the order of texts is the order of their bytes.
-/

namespace NaturalLanguage.Text

/-- The bytes of a text in UTF-8. -/
def bytes (s : String) : List UInt8 := s.toUTF8.data.toList

theorem bytes_eq_flatMap (s : String) : bytes s = s.toList.flatMap String.utf8EncodeChar := by
  rw [bytes, String.toUTF8_eq_toByteArray, ← String.utf8Encode_toList, List.utf8Encode,
    List.data_toByteArray, List.toList_toArray]

/-! ### Lists that differ -/

/-- The lists differ at some place, and where they do first, the first list is less. -/
def FirstLess {α : Type} [LT α] : List α → List α → Prop
  | x :: xs, y :: ys => x < y ∨ x = y ∧ FirstLess xs ys
  | _, _ => False

namespace FirstLess

variable {α : Type} [LT α] {xs ys : List α}

/-- What follows the first difference does not count. -/
theorem append (h : FirstLess xs ys) (rest rest' : List α) :
    FirstLess (xs ++ rest) (ys ++ rest') := by
  induction xs generalizing ys with
  | nil => cases h
  | cons x xs ih =>
    cases ys with
    | nil => cases h
    | cons y ys => exact h.imp_right fun ⟨hxy, h⟩ => ⟨hxy, ih h⟩

theorem lt (h : FirstLess xs ys) : xs < ys := by
  induction xs generalizing ys with
  | nil => cases h
  | cons x xs ih =>
    cases ys with
    | nil => cases h
    | cons y ys => exact List.cons_lt_cons_iff.2 (h.imp_right fun ⟨hxy, h⟩ => ⟨hxy, ih h⟩)

/-- Numbers up to 255 keep their order as bytes. -/
theorem map_ofNat {ms ns : List Nat} (h : FirstLess ms ns) (hns : ∀ n ∈ ns, n < 256) :
    FirstLess (ms.map UInt8.ofNat) (ns.map UInt8.ofNat) := by
  induction ms generalizing ns with
  | nil => cases h
  | cons m ms ih =>
    cases ns with
    | nil => cases h
    | cons n ns =>
      obtain ⟨hn, hrest⟩ := List.forall_mem_cons.1 hns
      obtain hlt | ⟨rfl, h⟩ := h
      · left
        rw [UInt8.lt_iff_toNat_lt, UInt8.toNat_ofNat_of_lt' (Nat.lt_trans hlt hn),
          UInt8.toNat_ofNat_of_lt' hn]
        exact hlt
      · exact .inr ⟨rfl, ih h hrest⟩

end FirstLess

/-! ### Characters -/

/-- The bytes of a code point, as numbers. -/
def codeUnits (v : Nat) : List Nat :=
  if v ≤ 0x7f then [v]
  else if v ≤ 0x7ff then [v / 64 % 0x20 + 0xc0, v % 0x40 + 0x80]
  else if v ≤ 0xffff then [v / 4096 % 0x10 + 0xe0, v / 64 % 0x40 + 0x80, v % 0x40 + 0x80]
  else [v / 262144 % 0x08 + 0xf0, v / 4096 % 0x40 + 0x80, v / 64 % 0x40 + 0x80, v % 0x40 + 0x80]

theorem codeUnits_cases (v : Nat) :
    (v ≤ 0x7f ∧ codeUnits v = [v]) ∨
    (0x7f < v ∧ v ≤ 0x7ff ∧ codeUnits v = [v / 64 % 0x20 + 0xc0, v % 0x40 + 0x80]) ∨
    (0x7ff < v ∧ v ≤ 0xffff ∧
      codeUnits v = [v / 4096 % 0x10 + 0xe0, v / 64 % 0x40 + 0x80, v % 0x40 + 0x80]) ∨
    0xffff < v ∧ codeUnits v =
      [v / 262144 % 0x08 + 0xf0, v / 4096 % 0x40 + 0x80, v / 64 % 0x40 + 0x80,
        v % 0x40 + 0x80] := by
  unfold codeUnits
  grind

theorem utf8EncodeChar_eq (c : Char) :
    String.utf8EncodeChar c = (codeUnits c.val.toNat).map UInt8.ofNat := by
  simp only [String.utf8EncodeChar, codeUnits, apply_ite (List.map UInt8.ofNat)]
  rfl

theorem lt_of_mem_codeUnits {v n : Nat} (h : n ∈ codeUnits v) : n < 256 := by
  obtain ⟨hv, heq⟩ | ⟨-, hv, heq⟩ | ⟨-, hv, heq⟩ | ⟨hv, heq⟩ := codeUnits_cases v <;>
    simp only [heq, List.mem_cons, List.not_mem_nil, or_false] at h <;> omega

/-- A greater code point has more bytes, which begin with a greater one, or as many bytes, which
are its digits. -/
theorem firstLess_codeUnits {v w : Nat} (h : v < w) (hw : w < 0x110000) :
    FirstLess (codeUnits v) (codeUnits w) := by
  -- one division by 64 after the other, so that every digit is seen to be one of the rest
  have hsecond : ∀ n : Nat, n / 4096 = n / 64 / 64 := fun n => (Nat.div_div_eq_div_mul n 64 64).symm
  have hthird : ∀ n : Nat, n / 262144 = n / 64 / 64 / 64 := fun n => by
    rw [Nat.div_div_eq_div_mul, Nat.div_div_eq_div_mul]
  obtain ⟨hv, heq⟩ | ⟨hv, hv', heq⟩ | ⟨hv, hv', heq⟩ | ⟨hv, heq⟩ := codeUnits_cases v <;>
    obtain ⟨hw, heq'⟩ | ⟨hw, hw', heq'⟩ | ⟨hw, hw', heq'⟩ | ⟨hw, heq'⟩ := codeUnits_cases w <;>
      simp only [heq, heq', FirstLess, hsecond, hthird] <;> omega

/-- Where the bytes of two characters differ first, those of the lesser one are less. -/
theorem firstLess_utf8EncodeChar {c d : Char} (h : c < d) :
    FirstLess (String.utf8EncodeChar c) (String.utf8EncodeChar d) := by
  have hlt : c.val.toNat < d.val.toNat := h
  have hmax : d.val.toNat < 0x110000 := d.valid.elim (by omega) And.right
  rw [utf8EncodeChar_eq, utf8EncodeChar_eq]
  exact (firstLess_codeUnits hlt hmax).map_ofNat fun _ => lt_of_mem_codeUnits

/-! ### Texts -/

theorem flatMap_utf8EncodeChar_lt {cs ds : List Char} (h : cs < ds) :
    cs.flatMap String.utf8EncodeChar < ds.flatMap String.utf8EncodeChar := by
  induction cs generalizing ds with
  | nil =>
    cases ds with
    | nil => exact absurd h (List.lt_irrefl _)
    | cons d ds =>
      obtain ⟨byte, bytes, heq⟩ := List.exists_cons_of_ne_nil (@String.utf8EncodeChar_ne_nil d)
      rw [List.flatMap_nil, List.flatMap_cons, heq, List.cons_append]
      exact List.nil_lt_cons _ _
  | cons c cs ih =>
    cases ds with
    | nil => exact absurd h (List.not_lt_nil _)
    | cons d ds =>
      rw [List.flatMap_cons, List.flatMap_cons]
      -- the first character that differs decides
      obtain hlt | ⟨rfl, hrest⟩ := List.cons_lt_cons_iff.1 h
      · exact ((firstLess_utf8EncodeChar hlt).append _ _).lt
      · exact List.append_left_lt (ih hrest)

theorem bytes_lt {s t : String} (h : s < t) : bytes s < bytes t := by
  rw [bytes_eq_flatMap, bytes_eq_flatMap]
  exact flatMap_utf8EncodeChar_lt h

/-- Texts may be compared byte by byte. -/
theorem lt_iff_bytes_lt {s t : String} : s < t ↔ bytes s < bytes t := by
  refine ⟨bytes_lt, fun h => ?_⟩
  by_contra hlt
  obtain heq | hgt : s = t ∨ t < s := by
    rw [String.not_lt] at hlt
    by_cases hle : s ≤ t
    · exact .inl (String.le_antisymm hle hlt)
    · exact .inr (String.not_le.1 hle)
  · rw [heq] at h
    exact List.lt_irrefl _ h
  · exact List.lt_asymm h (bytes_lt hgt)

end NaturalLanguage.Text
