import AgentMemory.Proofs.Text
import AgentMemory.Timestamp
import Mathlib.Algebra.Group.Nat.Defs
import Mathlib.Data.List.TakeWhile

/-!
# Written instants are read back

Each number of an instant is written with exactly as many digits as its reader takes, so the readers
meet the separators where the writer put them.
-/

namespace AgentMemory.Timestamp

/-! ## Digits -/

theorem length_padded {width n : Nat} (hw : 0 < width) (h : n < 10 ^ width) :
    (Text.padded width n).toList.length = width := by
  have hle := (Nat.length_toDigits_le_iff (by decide) hw).mpr h
  rw [Text.toList_padded, List.length_append, List.length_replicate]
  omega

theorem digits?_padded (width n : Nat) : Text.digits? (Text.padded width n).toList = some n := by
  have hne : (Text.padded width n).toList ≠ [] := by
    simp [Text.toList_padded, Nat.toDigits_ne_nil]
  rw [Text.digits?_eq hne fun c => Text.isDigit_of_mem_padded, Text.toList_padded,
    Nat.ofDigitChars_append, Nat.ofDigitChars_replicate_zero, Nat.mul_zero,
    Nat.ofDigitChars_ten_toDigits]

theorem padded_eq_cons {width n : Nat} (hw : 0 < width) (h : n < 10 ^ width) :
    ∃ c cs, (Text.padded width n).toList = c :: cs ∧ c.isDigit = true := by
  cases hp : (Text.padded width n).toList with
  | nil =>
    have hlength := length_padded hw h
    rw [hp] at hlength
    exact absurd hlength (Nat.ne_of_lt hw)
  | cons c cs => exact ⟨c, cs, rfl, Text.isDigit_of_mem_padded (hp ▸ List.mem_cons_self)⟩

theorem trimStart_cons {c : Char} (h : Text.isBlank c = false) (cs : List Char) :
    Text.trimStart (c :: cs) = c :: cs := by
  simp [Text.trimStart, h]

theorem isBlank_of_isDigit {c : Char} (h : c.isDigit = true) : Text.isBlank c = false := by
  have hrange : 48 ≤ c.toNat ∧ c.toNat ≤ 57 := by
    simp only [Char.isDigit, Bool.and_eq_true, decide_eq_true_eq, ge_iff_le,
      UInt32.le_iff_toNat_le] at h
    exact h
  simp only [Text.isBlank, Bool.or_eq_false_iff, Bool.and_eq_false_iff, decide_eq_false_iff_not]
  omega

theorem scanDigits_padded {width n : Nat} (hw : 0 < width) (h : n < 10 ^ width)
    (rest : List Char) :
    scanDigits width ((Text.padded width n).toList ++ rest) = some (n, rest) := by
  have hlength := length_padded hw h
  have htake : ((Text.padded width n).toList ++ rest).take width =
      (Text.padded width n).toList := by
    rw [List.take_append_of_le_length (by omega), List.take_of_length_le (by omega)]
  have hdigits : (Text.padded width n).toList.takeWhile Char.isDigit =
      (Text.padded width n).toList :=
    List.takeWhile_eq_self_iff.mpr fun c => Text.isDigit_of_mem_padded
  simp only [scanDigits, htake, hdigits, digits?_padded, Option.map_some]
  rw [List.drop_left]

theorem scanField_padded {width n : Nat} (hw : 0 < width) (h : n < 10 ^ width)
    (rest : List Char) :
    scanField width ((Text.padded width n).toList ++ rest) = some (n, rest) := by
  obtain ⟨c, cs, hcs, hc⟩ := padded_eq_cons hw h
  have hread := scanDigits_padded hw h rest
  rw [hcs, List.cons_append] at hread ⊢
  rw [scanField, trimStart_cons (isBlank_of_isDigit hc), hread]

/-! ## Parts of an instant -/

theorem scanYear_padded {n : Nat} (h : n < 10 ^ 4) (rest : List Char) :
    scanYear ((Text.padded 4 n).toList ++ rest) = some ((n : Int), rest) := by
  obtain ⟨c, cs, hcs, hc⟩ := padded_eq_cons (by decide) h
  have hread := scanDigits_padded (by decide) h rest
  rw [hcs, List.cons_append] at hread ⊢
  rw [scanYear, trimStart_cons (isBlank_of_isDigit hc)]
  split
  · next heq =>
    rw [(List.cons.inj heq).1] at hc
    exact absurd hc (by decide)
  · next heq =>
    rw [(List.cons.inj heq).1] at hc
    exact absurd hc (by decide)
  · rw [hread]
    rfl

theorem scanSeparator_cons {c : Char} (h : Text.isBlank c = false) (cs : List Char) :
    scanSeparator c (c :: cs) = some cs := by
  rw [scanSeparator, trimStart_cons h]
  simp

theorem scanNanos_padded {width n nanos : Nat} (hw : 0 < width) (hnine : width ≤ 9)
    (h : n < 10 ^ width) (hn : n * Nat.pow 10 (9 - width) = nanos) :
    scanNanos ('.' :: ((Text.padded width n).toList ++ ['Z'])) = some (nanos, ['Z']) := by
  have hlength := length_padded hw h
  have hdigits : ((Text.padded width n).toList ++ ['Z']).takeWhile Char.isDigit =
      (Text.padded width n).toList := by
    rw [List.takeWhile_append_of_pos fun c => Text.isDigit_of_mem_padded]
    simp
  have htake : (Text.padded width n).toList.take 9 = (Text.padded width n).toList :=
    List.take_of_length_le (by omega)
  have hdrop : ((Text.padded width n).toList ++ ['Z']).drop width = ['Z'] :=
    List.drop_left' hlength
  simp only [scanNanos, hdigits, htake, digits?_padded, Option.map_some, hlength, hn, hdrop]

theorem toList_fraction (width n : Nat) :
    ("." ++ Text.padded width n).toList ++ ['Z'] =
      '.' :: ((Text.padded width n).toList ++ ['Z']) := by
  simp [String.toList_append]

theorem scanNanos_nanosText {nanos : Nat} (h : nanos < 1000000000) :
    scanNanos ((nanosText nanos).toList ++ ['Z']) = some (nanos, ['Z']) := by
  unfold nanosText
  split
  · next hzero =>
    rw [hzero]
    rfl
  split
  · next hmilli =>
    have hpow : Nat.pow 10 (9 - 3) = 1000000 := by decide
    rw [toList_fraction]
    apply scanNanos_padded (by omega) (by omega)
    · omega
    · rw [hpow]
      omega
  split
  · next hmicro =>
    have hpow : Nat.pow 10 (9 - 6) = 1000 := by decide
    rw [toList_fraction]
    apply scanNanos_padded (by omega) (by omega)
    · omega
    · rw [hpow]
      omega
  · rw [toList_fraction]
    apply scanNanos_padded (by omega) (by omega)
    · omega
    · exact Nat.mul_one nanos

theorem toUTC_zero {t : Timestamp} (hhour : t.hour < 24) (hminute : t.minute < 60) :
    t.toUTC 0 = t := by
  have hhigh : ¬ (60 * t.hour + t.minute - 0 : Int) < 0 := by omega
  have hlow : ¬ dayMinutes ≤ (60 * t.hour + t.minute - 0 : Int) := by
    unfold dayMinutes
    omega
  have hdiv : (60 * t.hour + t.minute - 0 : Int).toNat / 60 = t.hour := by omega
  have hmod : (60 * t.hour + t.minute - 0 : Int).toNat % 60 = t.minute := by omega
  rw [toUTC]
  simp only [hhigh, hlow, if_false, hdiv, hmod]

/-! ## Whole instants -/

/-- An instant whose year has four digits. -/
structure FourDigitYear (t : Timestamp) : Prop where
  valid : t.isValid = true
  year_nonneg : 0 ≤ t.year
  year_le : t.year ≤ 9999

theorem toList_text {t : Timestamp} (h : t.FourDigitYear) :
    t.text.toList = (Text.padded 4 t.year.toNat).toList ++
      '-' :: ((Text.padded 2 t.month).toList ++ '-' :: ((Text.padded 2 t.day).toList ++
      'T' :: ((Text.padded 2 t.hour).toList ++ ':' :: ((Text.padded 2 t.minute).toList ++
      ':' :: ((Text.padded 2 t.second).toList ++ ((nanosText t.nanos).toList ++ ['Z'])))))) := by
  have hyear : yearText t.year = Text.padded 4 t.year.toNat := by
    rw [yearText, if_pos ⟨h.year_nonneg, h.year_le⟩]
  simp [text, hyear, String.toList_append]

theorem daysInMonth_le (year : Int) (month : Nat) : daysInMonth year month ≤ 31 := by
  unfold daysInMonth
  split_ifs <;> omega

theorem bind_scanField {β : Type} {mark : Option (List Char)} {n : Nat} {rest : List Char}
    (hmark : mark = some ((Text.padded 2 n).toList ++ rest)) (h : n < 100)
    (f : Nat × List Char → Option β) :
    (mark >>= fun cs => scanField 2 cs >>= f) = f (n, rest) := by
  rw [hmark, Option.bind_eq_bind, Option.bind_some, scanField_padded (by decide) h,
    Option.bind_eq_bind, Option.bind_some]

/-- **Written instants** are read back. -/
theorem parse_text {t : Timestamp} (h : t.FourDigitYear) : parse t.text = some t := by
  have hvalid := h.valid
  have hdays := daysInMonth_le t.year t.month
  simp only [isValid, Bool.and_eq_true, decide_eq_true_eq] at hvalid
  obtain ⟨⟨⟨⟨⟨⟨⟨⟨hyear, hmonth⟩, hmonth'⟩, hday⟩, hday'⟩, hhour⟩, hminute⟩, hsecond⟩, hnanos⟩ :=
    hvalid
  have hyearDigits : t.year.toNat < 10 ^ 4 := by
    have := h.year_le
    omega
  have hyearBack : ((t.year.toNat : Nat) : Int) = t.year := Int.toNat_of_nonneg h.year_nonneg
  have hdash : Text.isBlank '-' = false := by decide
  have hcolon : Text.isBlank ':' = false := by decide
  have hmark : ∀ cs, scanDateEnd ('T' :: cs) = some cs := fun _ => rfl
  have hzone : scanOffset (Text.trimStart ['Z']) = some (0, []) := by decide
  -- the readers take the fields one after the other
  rw [parse, toList_text h, scanYear_padded hyearDigits, hyearBack, Option.bind_eq_bind,
    Option.bind_some]
  dsimp only
  rw [bind_scanField (scanSeparator_cons hdash _) (by omega)]
  dsimp only
  rw [bind_scanField (scanSeparator_cons hdash _) (by omega)]
  dsimp only
  rw [bind_scanField (hmark _) (by omega)]
  dsimp only
  rw [bind_scanField (scanSeparator_cons hcolon _) (by omega)]
  dsimp only
  rw [bind_scanField (scanSeparator_cons hcolon _) (by omega)]
  dsimp only
  rw [scanNanos_nanosText hnanos, Option.bind_eq_bind, Option.bind_some]
  dsimp only
  rw [hzone, Option.bind_some]
  dsimp only
  rw [if_pos (by simp [h.valid, Text.trimStart, dayMinutes]), toUTC_zero hhour hminute,
    if_pos hyear]

end AgentMemory.Timestamp
