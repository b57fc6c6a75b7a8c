import AgentMemory.Text.Basic
import Mathlib.Algebra.GroupWithZero.Nat
import Mathlib.Data.List.Basic

/-!
# Texts

A number written with its digits is read back, however many zeros it is padded with. Taking items
from the front as long as they fit gives the longest start within some room (`LongestStart`): what
is taken never has to be given back for something longer. For the characters of a text that start
ends at the last boundary between characters in the room, the one that a search back from its end
comes upon first (`LongestStart.exists_splits`). A text too long is cut there.
-/

namespace AgentMemory

/-! ## Digits -/

namespace Text

theorem foldl_digit {cs : List Char} (h : ∀ c ∈ cs, c.isDigit = true) (n : Nat) :
    cs.foldl (fun acc c => acc.bind fun n =>
      if c.isDigit then some (10 * n + (c.toNat - 48)) else none) (some n) =
      some (Nat.ofDigitChars 10 cs n) := by
  induction cs generalizing n with
  | nil => rfl
  | cons c cs ih =>
    have hc : c.isDigit = true := h c List.mem_cons_self
    have hcs : ∀ x ∈ cs, x.isDigit = true := fun x hx => h x (List.mem_cons_of_mem _ hx)
    rw [List.foldl_cons, Option.bind_some, if_pos hc, ih hcs, Nat.ofDigitChars_cons]
    rfl

theorem digits?_eq {cs : List Char} (hne : cs ≠ []) (h : ∀ c ∈ cs, c.isDigit = true) :
    digits? cs = some (Nat.ofDigitChars 10 cs 0) := by
  have hempty : cs.isEmpty = false := by simpa using hne
  rw [digits?, hempty, if_neg Bool.false_ne_true, foldl_digit h]

theorem dropPlus_of_isDigit {cs : List Char} (h : ∀ c ∈ cs, c.isDigit = true) :
    dropPlus cs = cs := by
  unfold dropPlus
  split
  · rename_i rest
    exact absurd (h '+' List.mem_cons_self) (by decide)
  · rfl

theorem toList_padded (width n : Nat) :
    (padded width n).toList =
      List.replicate (width - (Nat.toDigits 10 n).length) '0' ++ Nat.toDigits 10 n :=
  String.toList_ofList

theorem isDigit_of_mem_padded {width n : Nat} {c : Char} (h : c ∈ (padded width n).toList) :
    c.isDigit = true := by
  rw [toList_padded, List.mem_append] at h
  obtain h | h := h
  · rw [List.eq_of_mem_replicate h]
    decide
  · exact Nat.isDigit_of_mem_toDigits (by omega) (by omega) h

theorem unsigned?_padded {width n : Nat} (h : n < wordSize) :
    unsigned? (padded width n) = some n := by
  have hne : (padded width n).toList ≠ [] := by simp [toList_padded, Nat.toDigits_ne_nil]
  have hvalue : Nat.ofDigitChars 10 (padded width n).toList 0 = n := by
    rw [toList_padded, Nat.ofDigitChars_append, Nat.ofDigitChars_replicate_zero, Nat.mul_zero,
      Nat.ofDigitChars_ten_toDigits]
  rw [unsigned?, dropPlus_of_isDigit fun c => isDigit_of_mem_padded,
    digits?_eq hne fun c => isDigit_of_mem_padded, hvalue]
  simp [h]

end Text

variable {α : Type} {size : α → Nat} {room : Nat} {x : α} {xs front : List α}

/-! ## The longest start -/

/-- The longest start of a list whose items together fit into some room. -/
structure LongestStart (size : α → Nat) (room : Nat) (xs front : List α) : Prop where
  start : front <+: xs
  fits : (front.map size).sum ≤ room
  longest : ∀ other, other <+: xs → (other.map size).sum ≤ room → other <+: front

namespace LongestStart

theorem nil : LongestStart size room [] [] where
  start := List.prefix_rfl
  fits := Nat.zero_le _
  longest _ hstart _ := hstart

theorem cons (hfits : size x ≤ room) (h : LongestStart size (room - size x) xs front) :
    LongestStart size room (x :: xs) (x :: front) where
  start := List.cons_prefix_cons.mpr ⟨rfl, h.start⟩
  fits := by
    have hrest := h.fits
    simp only [List.map_cons, List.sum_cons]
    omega
  longest other hstart hother := by
    cases other with
    | nil => exact List.nil_prefix
    | cons y ys =>
      obtain ⟨rfl, hys⟩ := List.cons_prefix_cons.mp hstart
      simp only [List.map_cons, List.sum_cons] at hother
      exact List.cons_prefix_cons.mpr ⟨rfl, h.longest ys hys (by omega)⟩

theorem stop (hfits : room < size x) : LongestStart size room (x :: xs) [] where
  start := List.nil_prefix
  fits := Nat.zero_le _
  longest other hstart hother := by
    cases other with
    | nil => exact List.prefix_rfl
    | cons y ys =>
      obtain ⟨rfl, -⟩ := List.cons_prefix_cons.mp hstart
      simp only [List.map_cons, List.sum_cons] at hother
      omega

end LongestStart

/-! ## Characters -/

namespace Text

theorem sum_utf8Size_toList (s : String) : (s.toList.map Char.utf8Size).sum = s.utf8ByteSize := by
  obtain ⟨cs, rfl⟩ := s.exists_eq_ofList
  rw [String.toList_ofList]
  induction cs with
  | nil => rfl
  | cons c cs ih =>
    rw [← List.singleton_append, String.ofList_append, String.utf8ByteSize_append,
      ← String.singleton_eq_ofList, String.utf8ByteSize_singleton, ← ih]
    rfl

theorem longestStart_takeBytes (room : Nat) (cs : List Char) :
    LongestStart Char.utf8Size room cs (takeBytes room cs) := by
  fun_induction takeBytes room cs with
  | case1 room => exact .nil
  | case2 room c cs hfits ih => exact .cons hfits ih
  | case3 room c cs hfits => exact .stop (Nat.lt_of_not_le hfits)

end Text

theorem LongestStart.exists_splits {s start : String}
    (h : LongestStart Char.utf8Size room s.toList start.toList) :
    ∃ rest, (s.posLE ⟨room⟩).Splits start rest := by
  obtain ⟨back, hback⟩ := h.start
  have hs : s = start ++ String.ofList back := by
    rw [← String.ofList_toList (s := s), ← hback, String.ofList_append, String.ofList_toList]
  have hvalid : start.rawEndPos.IsValid s :=
    String.Pos.Raw.isValid_iff_exists_append.mpr ⟨_, _, hs, rfl⟩
  have hcut : s.posLE ⟨room⟩ = s.pos _ hvalid := by
    refine String.posLE_eq_iff.mpr ⟨?_, fun p hp => ?_⟩
    · show start.utf8ByteSize ≤ room
      rw [← Text.sum_utf8Size_toList]
      exact h.fits
    · -- a boundary in the room ends a start that fits, and no such start is longer
      obtain ⟨other, after, hother, hend⟩ :=
        String.Pos.Raw.isValid_iff_exists_append.mp p.isValid
      rw [hend] at hp
      have hbegins : other.toList <+: s.toList :=
        ⟨after.toList, by rw [hother, String.toList_append]⟩
      obtain ⟨more, hmore⟩ := h.longest _ hbegins (by rwa [Text.sum_utf8Size_toList])
      show p.offset.byteIdx ≤ start.utf8ByteSize
      rw [hend, String.byteIdx_rawEndPos, ← Text.sum_utf8Size_toList start, ← hmore,
        List.map_append, List.sum_append, Text.sum_utf8Size_toList]
      exact Nat.le_add_right _ _
  exact ⟨_, hs, by rw [hcut]; rfl⟩

/-! ## Shortened texts -/

namespace Text

variable {limit : Nat} {s : String}

theorem shorten_of_le (h : s.utf8ByteSize ≤ limit) : shorten limit s = s := if_pos h

theorem exists_shorten_of_lt (h : limit < s.utf8ByteSize) :
    ∃ start rest, (s.posLE ⟨limit - ellipsis.utf8ByteSize⟩).Splits start rest ∧
      LongestStart Char.utf8Size (limit - ellipsis.utf8ByteSize) s.toList start.toList ∧
      shorten limit s = start ++ ellipsis := by
  have hlongest := longestStart_takeBytes (limit - ellipsis.utf8ByteSize) s.toList
  rw [← String.toList_ofList (l := takeBytes _ _)] at hlongest
  obtain ⟨rest, hsplits⟩ := hlongest.exists_splits
  exact ⟨_, rest, hsplits, hlongest, if_neg (Nat.not_le_of_lt h)⟩

theorem utf8ByteSize_shorten_le (h : ellipsis.utf8ByteSize ≤ limit) (s : String) :
    (shorten limit s).utf8ByteSize ≤ limit := by
  by_cases hs : s.utf8ByteSize ≤ limit
  · rwa [shorten_of_le hs]
  · obtain ⟨start, rest, -, hlongest, hshort⟩ := exists_shorten_of_lt (Nat.lt_of_not_le hs)
    have hfits := hlongest.fits
    rw [sum_utf8Size_toList] at hfits
    rw [hshort, String.utf8ByteSize_append]
    omega

/-- The room ends within the second of the wide characters, and the text is cut before it. -/
example : shorten 8 "a€€€" = "a€..." := by decide

end Text
end AgentMemory
