import Mathlib.Data.List.Basic
import Mathlib.Data.String.Basic

/-! # URL encoding

`quote_plus` and `urlencode` of Python's `urllib.parse`: the bytes of the UTF-8 encoding outside the
safe characters become `%XX`, a space becomes `+`. The encoding of a list of pairs determines the
list (`urlencode_injective`), because `=` and `&` occur only as separators. -/

namespace Coalestra
set_option autoImplicit false
set_option maxHeartbeats 250000

/-! ## Codes and separators -/

section
variable {A B : Type}

/-- A code whose words are nonempty and can be told off the front of a text. -/
theorem flatMap_injective {code : A → List B} (hne : ∀ a, code a ≠ [])
    (hcode : ∀ a b r r', code a ++ r = code b ++ r' → a = b ∧ r = r') :
    Function.Injective (List.flatMap code) := by
  intro l
  induction l with
  | nil =>
    intro l' h
    cases l' with
    | nil => rfl
    | cons b l' =>
      rw [List.flatMap_nil, List.flatMap_cons] at h
      exact absurd (List.append_eq_nil_iff.mp h.symm).1 (hne b)
  | cons a l ih =>
    intro l' h
    cases l' with
    | nil =>
      rw [List.flatMap_nil, List.flatMap_cons] at h
      exact absurd (List.append_eq_nil_iff.mp h).1 (hne a)
    | cons b l' =>
      rw [List.flatMap_cons, List.flatMap_cons] at h
      obtain ⟨rfl, hrest⟩ := hcode a b _ _ h
      rw [ih hrest]

/-- The first separator splits a text in one way. -/
theorem append_separator_inj {sep : B} {p p' r r' : List B} (hp : sep ∉ p) (hp' : sep ∉ p')
    (h : p ++ sep :: r = p' ++ sep :: r') : p = p' ∧ r = r' := by
  rcases List.append_eq_append_iff.mp h with ⟨q, rfl, hq⟩ | ⟨q, rfl, hq⟩
  · cases q with
    | nil => simpa using hq
    | cons x q =>
      rw [List.cons_append, List.cons.injEq] at hq
      simp [hq.1] at hp'
  · cases q with
    | nil => simpa using hq.symm
    | cons x q =>
      rw [List.cons_append, List.cons.injEq] at hq
      simp [hq.1] at hp

/-- Nonempty words without the separator can be told apart once they are joined. -/
theorem intercalate_injective {sep : B} : ∀ {l l' : List (List B)},
    (∀ w ∈ l, w ≠ [] ∧ sep ∉ w) → (∀ w ∈ l', w ≠ [] ∧ sep ∉ w) →
    [sep].intercalate l = [sep].intercalate l' → l = l' := by
  have hjoin : ∀ (w : List B) (l : List (List B)), [sep].intercalate (w :: l) =
      w ++ l.flatMap (sep :: ·) := by
    intro w l
    induction l generalizing w with
    | nil => simp [List.intercalate]
    | cons v l ih => simpa [List.intercalate] using ih v
  have hempty : ∀ (w : List B) (l : List (List B)), w ≠ [] →
      [sep].intercalate (w :: l) ≠ [].intercalate ([] : List (List B)) := by
    intro w l hw h
    rw [hjoin] at h
    exact hw (List.append_eq_nil_iff.mp h).1
  intro l
  induction l with
  | nil =>
    intro l' _ hl' h
    cases l' with
    | nil => rfl
    | cons w l' => exact absurd h.symm (hempty w l' (hl' w List.mem_cons_self).1)
  | cons v l ih =>
    intro l' hl hl' h
    cases l' with
    | nil => exact absurd h (hempty v l (hl v List.mem_cons_self).1)
    | cons w l' =>
      obtain ⟨hv, hvsep⟩ := hl v List.mem_cons_self
      obtain ⟨hw, hwsep⟩ := hl' w List.mem_cons_self
      have hrest := ih (fun u hu => hl u (List.mem_cons_of_mem _ hu))
        (fun u hu => hl' u (List.mem_cons_of_mem _ hu))
      rw [hjoin, hjoin] at h
      cases l with
      | nil =>
        cases l' with
        | nil => simpa using h
        | cons u l' =>
          simp only [List.flatMap_nil, List.append_nil, List.flatMap_cons, List.cons_append] at h
          rw [h] at hvsep
          simp at hvsep
      | cons u l =>
        cases l' with
        | nil =>
          simp only [List.flatMap_nil, List.append_nil, List.flatMap_cons, List.cons_append] at h
          rw [← h] at hwsep
          simp at hwsep
        | cons u' l' =>
          simp only [List.flatMap_cons, List.cons_append] at h
          obtain ⟨rfl, htail⟩ := append_separator_inj hvsep hwsep h
          rw [hrest (by rw [hjoin, hjoin, htail])]

end

/-! ## Bytes -/

/-- `_ALWAYS_SAFE`: the letters, the digits and `_.-~`. -/
def alwaysSafe (b : UInt8) : Bool :=
  (65 ≤ b && b ≤ 90) || (97 ≤ b && b ≤ 122) || (48 ≤ b && b ≤ 57) ||
    b == 95 || b == 46 || b == 45 || b == 126

def hexDigit (n : ℕ) : Char := Char.ofNat (if n < 10 then 48 + n else 55 + n)

def quoteByte (b : UInt8) : List Char :=
  if alwaysSafe b then [Char.ofNat b.toNat]
  else if b = 32 then ['+']
  else ['%', hexDigit (b.toNat / 16), hexDigit (b.toNat % 16)]

def quotePlus (text : String) : List Char := text.toUTF8.data.toList.flatMap quoteByte

def urlencode (query : List (String × String)) : String :=
  String.ofList (['&'].intercalate (query.map fun q => quotePlus q.1 ++ '=' :: quotePlus q.2))

theorem hexDigit_injective : ∀ m < 16, ∀ n < 16, hexDigit m = hexDigit n → m = n := by
  decide

/-- What stands for a safe byte or in an escape is no separator. -/
theorem alwaysSafe_char : ∀ n < 256, alwaysSafe (UInt8.ofNat n) = true →
    Char.ofNat n ≠ '%' ∧ Char.ofNat n ≠ '+' ∧ Char.ofNat n ≠ '=' ∧ Char.ofNat n ≠ '&' ∧
      (Char.ofNat n).toNat = n := by
  decide +kernel

theorem hexDigit_char : ∀ n < 16, hexDigit n ≠ '=' ∧ hexDigit n ≠ '&' := by
  decide

theorem quoteByte_separators (b : UInt8) : '=' ∉ quoteByte b ∧ '&' ∉ quoteByte b := by
  have hb : b.toNat < 256 := b.toNat_lt_size
  unfold quoteByte
  split
  · rename_i hsafe
    have hchar := alwaysSafe_char b.toNat hb (by simpa using hsafe)
    simp [hchar.2.2.1.symm, hchar.2.2.2.1.symm]
  · split
    · decide
    · have hhigh := hexDigit_char (b.toNat / 16) (by omega)
      have hlow := hexDigit_char (b.toNat % 16) (by omega)
      simp [hhigh.1.symm, hhigh.2.symm, hlow.1.symm, hlow.2.symm]

theorem quoteByte_ne_nil (b : UInt8) : quoteByte b ≠ [] := by
  unfold quoteByte
  split
  · simp
  · split <;> simp

theorem quoteByte_prefix (b c : UInt8) (r r' : List Char)
    (h : quoteByte b ++ r = quoteByte c ++ r') : b = c ∧ r = r' := by
  have hb : b.toNat < 256 := b.toNat_lt_size
  have hc : c.toNat < 256 := c.toNat_lt_size
  have hsafe : ∀ d : UInt8, alwaysSafe d = true → Char.ofNat d.toNat ≠ '%' ∧
      Char.ofNat d.toNat ≠ '+' ∧ (Char.ofNat d.toNat).toNat = d.toNat := by
    intro d hd
    have hchar := alwaysSafe_char d.toNat d.toNat_lt_size (by simpa using hd)
    exact ⟨hchar.1, hchar.2.1, hchar.2.2.2.2⟩
  unfold quoteByte at h
  by_cases hsb : alwaysSafe b = true
  · obtain ⟨hpercent, hplus, hback⟩ := hsafe b hsb
    rw [if_pos hsb] at h
    by_cases hsc : alwaysSafe c = true
    · rw [if_pos hsc] at h
      simp only [List.cons_append, List.nil_append, List.cons.injEq] at h
      have hnat : b.toNat = c.toNat := by rw [← hback, h.1, (hsafe c hsc).2.2]
      exact ⟨UInt8.toNat_inj.mp hnat, h.2⟩
    · rw [if_neg hsc] at h
      split at h <;> simp [hpercent, hplus] at h
  · rw [if_neg hsb] at h
    by_cases hsc : alwaysSafe c = true
    · obtain ⟨hpercent, hplus, _⟩ := hsafe c hsc
      rw [if_pos hsc] at h
      split at h <;> simp [hpercent.symm, hplus.symm] at h
    · rw [if_neg hsc] at h
      by_cases hspace : b = 32
      · rw [if_pos hspace] at h
        by_cases hspace' : c = 32
        · rw [if_pos hspace'] at h
          simp only [List.cons_append, List.nil_append, List.cons.injEq, true_and] at h
          exact ⟨hspace.trans hspace'.symm, h⟩
        · rw [if_neg hspace'] at h
          simp at h
      · rw [if_neg hspace] at h
        by_cases hspace' : c = 32
        · rw [if_pos hspace'] at h
          simp at h
        · rw [if_neg hspace'] at h
          simp only [List.cons_append, List.nil_append, List.cons.injEq, true_and] at h
          have hhigh := hexDigit_injective (b.toNat / 16) (by omega) (c.toNat / 16) (by omega) h.1
          have hlow := hexDigit_injective (b.toNat % 16) (by omega) (c.toNat % 16) (by omega) h.2.1
          have hnat : b.toNat = c.toNat := by omega
          exact ⟨UInt8.toNat_inj.mp hnat, h.2.2⟩

/-! ## Texts and queries -/

theorem quotePlus_separators (text : String) : '=' ∉ quotePlus text ∧ '&' ∉ quotePlus text := by
  simp only [quotePlus, List.mem_flatMap, not_exists, not_and]
  exact ⟨fun b _ => (quoteByte_separators b).1, fun b _ => (quoteByte_separators b).2⟩

theorem quotePlus_injective : Function.Injective quotePlus := by
  intro text text' h
  have hbytes := flatMap_injective quoteByte_ne_nil quoteByte_prefix h
  rw [Array.toList_inj, String.toUTF8_eq_toByteArray, String.toUTF8_eq_toByteArray,
    ← ByteArray.ext_iff, String.toByteArray_inj] at hbytes
  exact hbytes

theorem urlencode_injective : Function.Injective urlencode := by
  intro query query' h
  have hword : ∀ (query : List (String × String)),
      ∀ w ∈ query.map fun q => quotePlus q.1 ++ '=' :: quotePlus q.2, w ≠ [] ∧ '&' ∉ w := by
    intro query w hw
    obtain ⟨q, _, rfl⟩ := List.mem_map.mp hw
    simp [(quotePlus_separators q.1).2, (quotePlus_separators q.2).2]
  have hwords := intercalate_injective (hword query) (hword query') (String.ofList_injective h)
  refine List.map_injective_iff.mpr ?_ hwords
  rintro ⟨name, value⟩ ⟨name', value'⟩ heq
  obtain ⟨hname, hvalue⟩ := append_separator_inj (quotePlus_separators name).1
    (quotePlus_separators name').1 heq
  exact Prod.ext (quotePlus_injective hname) (quotePlus_injective hvalue)

end Coalestra
