import AgentMemory.Json.Document
import AgentMemory.Json.Printer
import Mathlib.Data.List.TakeWhile

/-!
# Written tokens are read back

A quoted text is one token, of the text it was made from, whatever follows the closing quote. A
number ends where no digit, point or exponent follows (`EndsNumber`), and a whole number of 64 bits
is then read as itself. A floating-point number is **legible** when its text alone reads back; that
it reads back in front of anything that ends a number is proved here.
-/

namespace AgentMemory.Json

/-! ## Quoted texts -/

theorem hexUnit?_control {n : Nat} (h : n < 0x20) :
    hexUnit? '0' '0' (hexDigit (n / 16)) (hexDigit (n % 16)) = some n := by
  revert n
  decide

theorem ofUnit_control {c : Char} (h : c.toNat < 0x20) : Piece.ofUnit c.toNat = .char c := by
  unfold Piece.ofUnit
  rw [if_neg (by omega), Char.ofNat_toNat]

theorem scanQuoted_escapeChar (acc : List Piece) (c : Char) (rest : List Char) :
    scanQuoted acc (escapeChar c ++ rest) = scanQuoted (.char c :: acc) rest := by
  unfold escapeChar
  split
  · next h => subst h; simp [scanQuoted, shortEscape?]
  split
  · next h => subst h; simp [scanQuoted, shortEscape?]
  split
  · next h => subst h; simp [scanQuoted, shortEscape?]
  split
  · next h => subst h; simp [scanQuoted, shortEscape?]
  split
  · next h => subst h; simp [scanQuoted, shortEscape?]
  split
  · next h => subst h; simp [scanQuoted, shortEscape?]
  split
  · next h => subst h; simp [scanQuoted, shortEscape?]
  split
  · next h =>
    have hunit := hexUnit?_control h
    have hpiece := ofUnit_control h
    simp only [List.cons_append, List.nil_append]
    rw [scanQuoted, hunit, ← hpiece]
  · next hquote hback _ _ _ _ _ hplain =>
    simp only [List.cons_append, List.nil_append]
    rw [scanQuoted.eq_def]
    split
    · next heq => cases heq
    · next heq => exact absurd (List.cons.inj heq).1 hquote
    · next heq => exact absurd (List.cons.inj heq).1 hback
    · next heq => exact absurd (List.cons.inj heq).1 hback
    · next heq => exact absurd (List.cons.inj heq).1 hback
    · next heq => exact absurd (List.cons.inj heq).1 hback
    · next heq =>
      obtain ⟨rfl, rfl⟩ := List.cons.inj heq
      rw [if_neg hplain]

theorem scanQuoted_flatMap (cs : List Char) (acc : List Piece) (rest : List Char) :
    scanQuoted acc (cs.flatMap escapeChar ++ '"' :: rest) =
      (acc.reverse ++ cs.map .char, .closed rest) := by
  induction cs generalizing acc with
  | nil => simp [scanQuoted]
  | cons c cs ih =>
    rw [List.flatMap_cons, List.append_assoc, scanQuoted_escapeChar, ih]
    simp

theorem joinPieces_chars (cs acc : List Char) :
    joinPieces acc (cs.map .char) = some (acc.reverse ++ cs) := by
  induction cs generalizing acc with
  | nil => simp [joinPieces]
  | cons c cs ih =>
    rw [List.map_cons, joinPieces, ih]
    simp

/-- **Quoted texts**: what stands in quotes is read as the text it was written from. -/
theorem tokenAt_quote (s : String) (rest : List Char) :
    tokenAt '"' (s.toList.flatMap escapeChar ++ '"' :: rest) = (.text (some s), rest) := by
  have hmark : mark? '"' = none := by decide
  simp only [tokenAt, hmark, if_pos, textToken, scanQuoted_flatMap, List.reverse_nil,
    List.nil_append, joinPieces_chars, Option.map_some, String.ofList_toList]

/-! ## Digits -/

/-- What follows a number: nothing that could go on with it. -/
def EndsNumber : List Char → Prop
  | [] => True
  | c :: _ => c.isDigit = false ∧ c ≠ '.' ∧ c ≠ 'e' ∧ c ≠ 'E'

theorem spanDigits_append {rest : List Char} (hrest : EndsNumber rest) (cs : List Char) :
    spanDigits (cs ++ rest) = ((spanDigits cs).1, (spanDigits cs).2 ++ rest) := by
  simp only [spanDigits]
  induction cs with
  | nil =>
    cases rest with
    | nil => rfl
    | cons c rest => simp [hrest.1]
  | cons c cs ih =>
    cases hc : c.isDigit with
    | false => simp [hc]
    | true => simpa [hc] using ih

theorem spanDigits_of_digits {ds : List Char} (h : ∀ c ∈ ds, c.isDigit = true) :
    spanDigits ds = (ds, []) := by
  have htake : ds.takeWhile Char.isDigit = ds := List.takeWhile_eq_self_iff.mpr h
  have hdrop : ds.dropWhile Char.isDigit = [] := List.dropWhile_eq_nil_iff.mpr h
  rw [spanDigits, htake, hdrop]

/-! ## A number goes on only with a digit, a point or an exponent -/

variable {rest : List Char}

theorem scanWhole_cons {c : Char} (h : c ≠ '0') (cs : List Char) :
    scanWhole (c :: cs) =
      if (spanDigits (c :: cs)).1.isEmpty then .error (missingDigit (spanDigits (c :: cs)).2)
      else .ok (spanDigits (c :: cs)) := by
  unfold scanWhole
  split
  · next heq => exact absurd (List.cons.inj heq).1 h
  · rfl

theorem scanWhole_append (hrest : EndsNumber rest) {cs ds r : List Char}
    (h : scanWhole cs = .ok (ds, r)) : scanWhole (cs ++ rest) = .ok (ds, r ++ rest) := by
  cases cs with
  | nil => simp [scanWhole, spanDigits] at h
  | cons c cs =>
    by_cases hzero : c = '0'
    · subst hzero
      cases cs with
      | nil =>
        simp only [scanWhole, Except.ok.injEq, Prod.mk.injEq] at h
        obtain ⟨rfl, rfl⟩ := h
        cases rest with
        | nil => rfl
        | cons c rest => simp [scanWhole, hrest.1]
      | cons d cs =>
        simp only [scanWhole, List.cons_append] at h ⊢
        split at h
        · cases h
        · next hd =>
          simp only [Except.ok.injEq, Prod.mk.injEq] at h
          obtain ⟨rfl, rfl⟩ := h
          rw [if_neg hd]
          rfl
    · have happend := spanDigits_append hrest (c :: cs)
      rw [List.cons_append] at happend ⊢
      rw [scanWhole_cons hzero] at h ⊢
      rw [happend]
      split at h
      · cases h
      · next hne =>
        rw [if_neg hne]
        rw [Except.ok.injEq] at h
        rw [h]

theorem scanFraction_append (hrest : EndsNumber rest) {cs r : List Char} {ds : Option (List Char)}
    (h : scanFraction cs = .ok (ds, r)) : scanFraction (cs ++ rest) = .ok (ds, r ++ rest) := by
  unfold scanFraction at h
  split at h
  · next cs =>
    simp only [List.cons_append, scanFraction, spanDigits_append hrest]
    simp only at h
    split at h
    · cases h
    · next hne =>
      cases h
      rw [if_neg hne]
  · next hpoint =>
    cases h
    unfold scanFraction
    split
    · next r heq =>
      cases cs with
      | nil =>
        rw [List.nil_append] at heq
        rw [heq] at hrest
        exact absurd rfl hrest.2.1
      | cons c cs => exact absurd (by rw [(List.cons.inj heq).1]) (hpoint cs)
    · rfl

theorem scanSign_cons (c : Char) (cs : List Char) :
    scanSign (c :: cs) =
      if c = '-' then (true, cs) else if c = '+' then (false, cs) else (false, c :: cs) := by
  unfold scanSign
  split
  · next heq =>
    obtain ⟨rfl, rfl⟩ := List.cons.inj heq
    rfl
  · next heq =>
    obtain ⟨rfl, rfl⟩ := List.cons.inj heq
    rfl
  · next hminus hplus =>
    have h1 : c ≠ '-' := fun h => hminus cs (by rw [h])
    have h2 : c ≠ '+' := fun h => hplus cs (by rw [h])
    rw [if_neg h1, if_neg h2]

theorem scanExponent_append (hrest : EndsNumber rest) {cs r : List Char}
    {ds : Option (Bool × List Char)} (h : scanExponent cs = .ok (ds, r)) :
    scanExponent (cs ++ rest) = .ok (ds, r ++ rest) := by
  cases cs with
  | nil =>
    cases h
    cases rest with
    | nil => rfl
    | cons c rest => simp [scanExponent, hrest.2.2.1, hrest.2.2.2]
  | cons c cs =>
    simp only [scanExponent, List.cons_append] at h ⊢
    split at h
    · next he =>
      rw [if_pos he]
      cases cs with
      | nil => simp [scanSign, spanDigits] at h
      | cons d cs =>
        have hsign : scanSign (d :: cs ++ rest) =
            ((scanSign (d :: cs)).1, (scanSign (d :: cs)).2 ++ rest) := by
          rw [List.cons_append, scanSign_cons, scanSign_cons]
          split_ifs <;> rfl
        rw [hsign]
        simp only [spanDigits_append hrest] at h ⊢
        split at h
        · cases h
        · next hne =>
          cases h
          rw [if_neg hne]
    · next he =>
      cases h
      rw [if_neg he]
      rfl

theorem scanNumeral_append (hrest : EndsNumber rest) {negative : Bool} {cs r : List Char}
    {l : Numeral} (h : scanNumeral negative cs = .ok (l, r)) :
    scanNumeral negative (cs ++ rest) = .ok (l, r ++ rest) := by
  unfold scanNumeral at h ⊢
  cases hw : scanWhole cs with
  | error e => rw [hw] at h; cases h
  | ok w =>
    obtain ⟨whole, c1⟩ := w
    cases hf : scanFraction c1 with
    | error e => simp only [bind, Except.bind, hw, hf] at h; cases h
    | ok w =>
      obtain ⟨fraction, c2⟩ := w
      cases he : scanExponent c2 with
      | error e => simp only [bind, Except.bind, hw, hf, he] at h; cases h
      | ok w =>
        obtain ⟨ex, c3⟩ := w
        simp only [bind, Except.bind, hw, hf, he, pure, Except.pure] at h
        cases h
        simp only [bind, Except.bind, scanWhole_append hrest hw, scanFraction_append hrest hf,
          scanExponent_append hrest he, pure, Except.pure]

theorem numberToken_append (hrest : EndsNumber rest) {negative : Bool} {cs r : List Char}
    {n : Option Number} (h : numberToken negative cs = (.number n, r)) :
    numberToken negative (cs ++ rest) = (.number n, r ++ rest) := by
  unfold numberToken at h ⊢
  split at h
  · next l r' hl =>
    simp only [Prod.mk.injEq] at h
    obtain ⟨hn, rfl⟩ := h
    simp only [scanNumeral_append hrest hl, hn]
  · simp at h

/-! ## Whole numbers -/

theorem le_ofDigitChars (cs : List Char) (n : Nat) : n ≤ Nat.ofDigitChars 10 cs n := by
  induction cs generalizing n with
  | nil => exact Nat.le_refl n
  | cons c cs ih =>
    rw [Nat.ofDigitChars_cons]
    have := ih (10 * n + (c.toNat - '0'.toNat))
    omega

/-- One more digit: it is taken if it still fits and none before it has been dropped. -/
def takeDigit (p : Nat × Nat) (c : Char) : Nat × Nat :=
  if p.2 = 0 ∧ 10 * p.1 + digitValue c < Nat.pow 2 64 then (10 * p.1 + digitValue c, 0)
  else (p.1, p.2 + 1)

theorem wholeDigits_eq_foldl (cs : List Char) : wholeDigits cs = cs.foldl takeDigit (0, 0) := rfl

theorem foldl_takeDigit {cs : List Char} {n : Nat}
    (h : Nat.ofDigitChars 10 cs n < Nat.pow 2 64) :
    cs.foldl takeDigit (n, 0) = (Nat.ofDigitChars 10 cs n, 0) := by
  induction cs generalizing n with
  | nil => rfl
  | cons c cs ih =>
    rw [Nat.ofDigitChars_cons] at h ⊢
    have hle := le_ofDigitChars cs (10 * n + (c.toNat - '0'.toNat))
    have hnext : 10 * n + digitValue c < Nat.pow 2 64 := Nat.lt_of_le_of_lt hle h
    rw [List.foldl_cons, ← ih h, takeDigit, if_pos ⟨rfl, hnext⟩]
    rfl

theorem wholeDigits_eq {cs : List Char} (h : Nat.ofDigitChars 10 cs 0 < Nat.pow 2 64) :
    wholeDigits cs = (Nat.ofDigitChars 10 cs 0, 0) := by
  rw [wholeDigits_eq_foldl, foldl_takeDigit h]

theorem toDigits_head {n : Nat} {cs : List Char} (h : Nat.toDigits 10 n = '0' :: cs) :
    n = 0 ∧ cs = [] := by
  have hdigit : ∀ d < 10, d.digitChar = '0' → d = 0 := by decide
  induction n using Nat.strongRecOn generalizing cs with
  | ind n ih =>
    by_cases hn : n < 10
    · rw [Nat.toDigits_of_lt_base hn, List.cons.injEq] at h
      exact ⟨hdigit n hn h.1, h.2.symm⟩
    · rw [Nat.toDigits_of_base_le (by decide) (by omega)] at h
      cases hd : Nat.toDigits 10 (n / 10) with
      | nil => exact absurd hd Nat.toDigits_ne_nil
      | cons c ds =>
        rw [hd, List.cons_append, List.cons.injEq] at h
        rw [h.1] at hd
        have := (ih (n / 10) (by omega) hd).1
        omega

theorem scanWhole_toDigits (n : Nat) :
    scanWhole (Nat.toDigits 10 n) = .ok (Nat.toDigits 10 n, []) := by
  have hdigits : ∀ c ∈ Nat.toDigits 10 n, c.isDigit = true := fun c hc =>
    Nat.isDigit_of_mem_toDigits (by omega) (by omega) hc
  cases hds : Nat.toDigits 10 n with
  | nil => exact absurd hds Nat.toDigits_ne_nil
  | cons c cs =>
    rw [hds] at hdigits
    by_cases hzero : c = '0'
    · subst hzero
      rw [(toDigits_head hds).2]
      rfl
    · rw [scanWhole_cons hzero, spanDigits_of_digits hdigits]
      rfl

theorem scanNumeral_toDigits (negative : Bool) (n : Nat) :
    scanNumeral negative (Nat.toDigits 10 n) =
      .ok ({ negative, whole := Nat.toDigits 10 n, fraction := none, exponent := none }, []) := by
  unfold scanNumeral
  rw [scanWhole_toDigits]
  rfl

theorem numberToken_toDigits {n : Nat} (h : n < Nat.pow 2 64) :
    numberToken false (Nat.toDigits 10 n) = (.number (some (.int n)), []) := by
  have hvalue : Nat.ofDigitChars 10 (Nat.toDigits 10 n) 0 = n := Nat.ofDigitChars_ten_toDigits
  have hwhole : wholeDigits (Nat.toDigits 10 n) = (n, 0) := by
    rw [wholeDigits_eq (by rwa [hvalue]), hvalue]
  simp only [numberToken, scanNumeral_toDigits, Numeral.value?, hwhole]
  rfl

theorem numberToken_toDigits_negative {n : Nat} (hpos : 0 < n) (h : n ≤ Nat.pow 2 63) :
    numberToken true (Nat.toDigits 10 n) = (.number (some (.int (-n))), []) := by
  have hvalue : Nat.ofDigitChars 10 (Nat.toDigits 10 n) 0 = n := Nat.ofDigitChars_ten_toDigits
  have hfits : n < Nat.pow 2 64 := Nat.lt_of_le_of_lt h (by decide)
  have hwhole : wholeDigits (Nat.toDigits 10 n) = (n, 0) := by
    rw [wholeDigits_eq (by rwa [hvalue]), hvalue]
  simp only [numberToken, scanNumeral_toDigits, Numeral.value?, hwhole]
  simp [hpos, h]

end AgentMemory.Json
