import Mathlib.Tactic.SplitIfs
import Mathlib.Tactic.ByContra
import Collate.Text.Basic

/-!
# Texts as bytes

`Text.before` compares characters.  In UTF-8 a character of a smaller number has the smaller bytes,
whatever stands behind it, so the bytes of two texts compare in the same way.

* `Text.bytes`            the bytes of a text in UTF-8;
* `utf8EncodeChar_lt`     the bytes of two characters compare as the characters do;
* `asciiByte_mem_utf8EncodeChar`  a byte of ASCII stands for its character and is part of no other one;
* `Text.before_iff_bytes` the order of texts is the order of their bytes.
-/

namespace Collate

theorem byte_toNat {a : Nat} (ha : a < 256) : (UInt8.ofNat a).toNat = a :=
  UInt8.toNat_ofNat_of_lt' ha

theorem byte_lt {a b : Nat} (ha : a < 256) (hb : b < 256) :
    UInt8.ofNat a < UInt8.ofNat b ↔ a < b := by
  rw [UInt8.lt_iff_toNat_lt, byte_toNat ha, byte_toNat hb]

theorem byte_eq {a b : Nat} (ha : a < 256) (hb : b < 256) :
    UInt8.ofNat a = UInt8.ofNat b ↔ a = b := by
  rw [← UInt8.toNat_inj, byte_toNat ha, byte_toNat hb]

/-- numbers compare by their last digit to the base 64 when all other digits agree -/
theorem digit_lt {v w : Nat} (h : v < w) :
    v / 64 < w / 64 ∨ v / 64 = w / 64 ∧ v % 64 < w % 64 := by
  omega

theorem utf8EncodeChar_lt {c d : Char} (h : c.toNat < d.toNat) (s t : List UInt8) :
    String.utf8EncodeChar c ++ s < String.utf8EncodeChar d ++ t := by
  have hmax : d.val.toNat < 1114112 := by
    have hvalid := d.valid
    simp only [UInt32.isValidChar, Nat.isValidChar] at hvalid
    omega
  change c.val.toNat < d.val.toNat at h
  unfold String.utf8EncodeChar
  generalize c.val.toNat = v at h
  generalize d.val.toNat = w at h hmax
  -- every byte but the first holds one digit to the base 64
  have hthird (n : Nat) : n / 4096 = n / 64 / 64 := (Nat.div_div_eq_div_mul n 64 64).symm
  have hfourth (n : Nat) : n / 262144 = n / 64 / 64 / 64 := by
    rw [Nat.div_div_eq_div_mul, Nat.div_div_eq_div_mul]
  simp only [hthird, hfourth]
  have hdigits := (digit_lt h).imp_left fun h => (digit_lt h).imp_left digit_lt
  have hv : v / 64 / 64 / 64 ≤ w / 64 / 64 / 64 := by omega
  have hw : w / 64 / 64 / 64 < 8 := by omega
  split_ifs
  all_goals
    simp only [List.cons_append, List.nil_append, List.cons_lt_cons_iff]
    simp (disch := omega) only [byte_lt, byte_eq]
    omega

/-! ## bytes of ASCII -/

/-- the byte of a character of ASCII -/
def asciiByte (c : Char) : UInt8 :=
  UInt8.ofNat c.toNat

theorem utf8EncodeChar_ascii {c : Char} (h : c.toNat < 128) :
    String.utf8EncodeChar c = [asciiByte c] := by
  change c.val.toNat < 128 at h
  unfold String.utf8EncodeChar
  rw [if_pos (by omega)]
  rfl

theorem le_of_mem_utf8EncodeChar {c : Char} (h : 128 ≤ c.toNat) :
    ∀ b ∈ String.utf8EncodeChar c, 128 ≤ b.toNat := by
  have hmax : c.val.toNat < 1114112 := by
    have hvalid := c.valid
    simp only [UInt32.isValidChar, Nat.isValidChar] at hvalid
    omega
  change 128 ≤ c.val.toNat at h
  unfold String.utf8EncodeChar
  generalize c.val.toNat = v at h hmax
  dsimp only
  split_ifs
  all_goals
    simp only [List.forall_mem_cons, List.not_mem_nil, false_imp_iff, implies_true, and_true]
    simp (disch := omega) only [byte_toNat]
    omega

/-- a byte of ASCII stands for its character, and is part of no other one -/
theorem asciiByte_mem_utf8EncodeChar {c d : Char} (hd : d.toNat < 128) :
    asciiByte d ∈ String.utf8EncodeChar c ↔ c = d := by
  have hbyte {c : Char} (hc : c.toNat < 128) : (asciiByte c).toNat = c.toNat :=
    byte_toNat (by omega)
  constructor
  · intro hmem
    rcases Nat.lt_or_ge c.toNat 128 with hc | hc
    · rw [utf8EncodeChar_ascii hc, List.mem_singleton] at hmem
      have htoNat := congrArg UInt8.toNat hmem
      rw [hbyte hc, hbyte hd] at htoNat
      exact Char.ext (UInt32.toNat_inj.mp htoNat.symm)
    · have hle := le_of_mem_utf8EncodeChar hc _ hmem
      rw [hbyte hd] at hle
      omega
  · rintro rfl
    rw [utf8EncodeChar_ascii hd]
    exact List.mem_cons_self

theorem asciiByte_inj {c d : Char} (hc : c.toNat < 128) (hd : d.toNat < 128) :
    asciiByte c = asciiByte d ↔ c = d := by
  rw [← asciiByte_mem_utf8EncodeChar hd, utf8EncodeChar_ascii hc, List.mem_singleton, eq_comm]

namespace Text

def bytes (t : Text) : List UInt8 :=
  t.flatMap String.utf8EncodeChar

theorem bytes_cons (c : Char) (t : Text) :
    bytes (c :: t) = String.utf8EncodeChar c ++ t.bytes := rfl

theorem bytes_append (s t : Text) : bytes (s ++ t) = s.bytes ++ t.bytes :=
  List.flatMap_append

theorem bytes_singleton (c : Char) : bytes [c] = String.utf8EncodeChar c := by
  rw [bytes_cons, bytes, List.flatMap_nil, List.append_nil]

theorem length_bytes (t : Text) : t.bytes.length = t.size := by
  induction t with
  | nil => rfl
  | cons c t ih => rw [bytes_cons, List.length_append, String.length_utf8EncodeChar, ih, size_cons]

theorem bytes_cons_pos (c : Char) (t : Text) : [] < bytes (c :: t) := by
  have hne : bytes (c :: t) ≠ [] := by
    rw [bytes_cons]
    exact List.append_ne_nil_of_left_ne_nil String.utf8EncodeChar_ne_nil _
  cases hbytes : bytes (c :: t) with
  | nil => exact absurd hbytes hne
  | cons b bs => exact List.nil_lt_cons b bs

theorem bytes_le {t u : Text} (h : t.before u = true) : t.bytes ≤ u.bytes := by
  induction t generalizing u with
  | nil => exact List.nil_le u.bytes
  | cons c t ih =>
    cases u with
    | nil => exact Bool.noConfusion h
    | cons d u =>
      rw [before] at h
      split at h
      next hcd =>
        subst hcd
        exact List.append_left_le (ih h)
      next => exact List.le_of_lt (utf8EncodeChar_lt (of_decide_eq_true h) _ _)

theorem bytes_lt {t u : Text} (h : u.before t = false) : t.bytes < u.bytes := by
  induction u generalizing t with
  | nil => exact Bool.noConfusion h
  | cons d u ih =>
    cases t with
    | nil => exact bytes_cons_pos d u
    | cons c t =>
      rw [before] at h
      split at h
      next hdc =>
        subst hdc
        exact List.append_left_lt (ih h)
      next hdc =>
        have hne : d.toNat ≠ c.toNat := fun h => hdc (Char.ext (UInt32.toNat_inj.mp h))
        have hnot : ¬ d.toNat < c.toNat := of_decide_eq_false h
        exact utf8EncodeChar_lt (by omega) _ _

/-- the order of texts is the order of their bytes -/
theorem before_iff_bytes (t u : Text) : t.before u = true ↔ t.bytes ≤ u.bytes := by
  constructor
  · exact bytes_le
  · intro hle
    by_contra hnot
    rw [Bool.not_eq_true] at hnot
    exact List.not_lt.mpr hle (bytes_lt hnot)

end Text

end Collate
