import AgentMemory.Proofs.Json.Token

/-!
# Reading one token after another

What a reading does depends only on the tokens, not on the blanks between them: `Lexes` says which
token a text starts with and what follows it, and a reading takes one such token at a time. A number
is **legible** if its own text reads back; then it is one token in front of whatever ends a number.
-/

namespace AgentMemory.Json

/-! ## One token at a time -/

def Blanks (bs : List Char) : Prop := ∀ c ∈ bs, isBlank c = true

theorem blanks_nil : Blanks [] := fun _ h => absurd h List.not_mem_nil

theorem skipBlanks_append {bs : List Char} (h : Blanks bs) (cs : List Char) :
    skipBlanks (bs ++ cs) = skipBlanks cs := by
  induction bs with
  | nil => rfl
  | cons b bs ih =>
    rw [List.cons_append, skipBlanks, if_pos (h b List.mem_cons_self)]
    exact ih fun c hc => h c (List.mem_cons_of_mem b hc)

theorem blanks_of_skipBlanks {cs : List Char} (h : skipBlanks cs = []) : Blanks cs := by
  induction cs with
  | nil => exact blanks_nil
  | cons c cs ih =>
    unfold skipBlanks at h
    split at h
    · next hc => exact List.forall_mem_cons.mpr ⟨hc, ih h⟩
    · cases h

/-- The first token of the text is `t`, and up to blanks `rest` follows it. -/
def Lexes (cs : List Char) (t : Token) (rest : List Char) : Prop :=
  ∃ c tail r, skipBlanks cs = c :: tail ∧ tokenAt c tail = (t, r) ∧ skipBlanks r = skipBlanks rest

theorem Lexes.of_tokenAt {c : Char} {tail rest : List Char} {t : Token} (hc : isBlank c = false)
    (h : tokenAt c tail = (t, rest)) : Lexes (c :: tail) t rest := by
  refine ⟨c, tail, rest, ?_, h, rfl⟩
  simp [skipBlanks, hc]

theorem Lexes.blanks {bs cs rest : List Char} {t : Token} (hbs : Blanks bs)
    (h : Lexes cs t rest) : Lexes (bs ++ cs) t rest := by
  obtain ⟨c, tail, r, hskip, htoken, hrest⟩ := h
  exact ⟨c, tail, r, by rw [skipBlanks_append hbs, hskip], htoken, hrest⟩

theorem lexes_quote (s : String) (rest : List Char) :
    Lexes (quote s ++ rest) (.text (some s)) rest := by
  have htext : quote s ++ rest = '"' :: (s.toList.flatMap escapeChar ++ '"' :: rest) := by
    simp [quote]
  rw [htext]
  exact Lexes.of_tokenAt (by decide) (tokenAt_quote s rest)

namespace Doc

/-- How a reading goes on after a step, in front of the rest of the text. -/
def resume (rest : List Char) : Step → Doc × Bool
  | .next phase frames => run phase frames rest
  | .complete doc => (doc, !(skipBlanks rest).isEmpty)
  | .stop doc => (doc, false)

theorem nextToken_eq_none {cs : List Char} (h : skipBlanks cs = []) : nextToken cs = none := by
  unfold nextToken
  split
  · rfl
  · next heq => rw [h] at heq; cases heq

theorem nextToken_eq_some {cs tail : List Char} {c : Char} (h : skipBlanks cs = c :: tail) :
    ∃ hlt, nextToken cs = some ((tokenAt c tail).1, ⟨(tokenAt c tail).2, hlt⟩) := by
  unfold nextToken
  split
  · next heq => rw [h] at heq; cases heq
  · next heq =>
    obtain ⟨rfl, rfl⟩ := List.cons.inj (h.symm.trans heq)
    exact ⟨Nat.lt_of_lt_of_le (length_tokenAt c tail) (h ▸ length_skipBlanks_le cs), rfl⟩

theorem run_cons {phase : Phase} {frames : List Frame} {cs tail : List Char} {c : Char}
    (h : skipBlanks cs = c :: tail) :
    run phase frames cs = resume (tokenAt c tail).2 (step phase frames (tokenAt c tail).1) := by
  obtain ⟨hlt, htoken⟩ := nextToken_eq_some h
  rw [run, htoken]
  simp only
  cases step phase frames (tokenAt c tail).1 <;> rfl

theorem run_congr {phase : Phase} {frames : List Frame} {cs cs' : List Char}
    (h : skipBlanks cs = skipBlanks cs') : run phase frames cs = run phase frames cs' := by
  cases hcs : skipBlanks cs with
  | nil =>
    rw [run, run, nextToken_eq_none hcs, nextToken_eq_none (h.symm.trans hcs)]
  | cons c tail => rw [run_cons hcs, run_cons (h.symm.trans hcs)]

theorem resume_congr {rest rest' : List Char} (h : skipBlanks rest = skipBlanks rest')
    (s : Step) : resume rest s = resume rest' s := by
  cases s with
  | next phase frames => exact run_congr h
  | complete doc => simp only [resume, h]
  | stop doc => rfl

theorem run_lexes {cs rest : List Char} {t : Token} (h : Lexes cs t rest) (phase : Phase)
    (frames : List Frame) : run phase frames cs = resume rest (step phase frames t) := by
  obtain ⟨c, tail, r, hskip, htoken, hrest⟩ := h
  rw [run_cons hskip, htoken]
  exact resume_congr hrest _

end Doc

/-! ## Legible numbers -/

/-- Whether a number is read back from its own text: a whole one of 64 bits always is, of a
floating-point one it is said here. -/
def Number.Legible : Number → Prop
  | .int n => -(Nat.pow 2 63 : Int) ≤ n ∧ n < (Nat.pow 2 64 : Int)
  | .float x => ofText (String.ofList x.write) = .ok (.number (.float x))

def NumberChar (c : Char) : Prop := c.isDigit = true ∨ c = '.' ∨ c = '-' ∨ c = '+' ∨ c = 'e'

theorem numberChar_of_mem_toDigits {n : Nat} {c : Char} (h : c ∈ Nat.toDigits 10 n) :
    NumberChar c :=
  .inl (Nat.isDigit_of_mem_toDigits (by omega) (by omega) h)

theorem numberChar_layout {ds : List Char} {e : Int} (hds : ∀ c ∈ ds, NumberChar c) :
    ∀ c ∈ Binary64.layout ds e, NumberChar c := by
  have hzero : NumberChar '0' := .inl (by decide)
  have hpoint : NumberChar '.' := .inr (.inl rfl)
  have hexp : NumberChar 'e' := .inr (.inr (.inr (.inr rfl)))
  have hzeros : ∀ n, ∀ c ∈ List.replicate n '0', NumberChar c := by
    intro n c hc
    rw [List.eq_of_mem_replicate hc]
    exact hzero
  unfold Binary64.layout
  simp only
  split
  · split
    · simp only [List.forall_mem_append, List.forall_mem_cons]
      exact ⟨⟨hds, hzeros _⟩, hpoint, hzero, by simp⟩
    · simp only [List.forall_mem_append, List.forall_mem_cons]
      exact ⟨fun c hc => hds c (List.mem_of_mem_take hc), hpoint,
        fun c hc => hds c (List.mem_of_mem_drop hc)⟩
  split
  · simp only [List.forall_mem_append, List.forall_mem_cons, List.cons_append]
    exact ⟨hzero, hpoint, hzeros _, hds⟩
  · simp only [List.forall_mem_append, List.forall_mem_cons]
    refine ⟨?_, hexp, ?_, fun c hc => numberChar_of_mem_toDigits hc⟩
    · split
      · simp only [List.forall_mem_cons] at hds ⊢
        exact ⟨hds.1, hpoint, hds.2⟩
      · exact hds
    · split
      · exact .inr (.inr (.inl rfl))
      · exact .inr (.inr (.inr (.inl rfl)))

theorem numberChar_write (x : Binary64) : ∀ c ∈ x.write, NumberChar c := by
  unfold Binary64.write
  have hbody : ∀ c ∈ (if x.isZero then ['0', '.', '0']
      else Binary64.layout (Binary64.significant x.shortest.1 x.shortest.2).1
        (Binary64.significant x.shortest.1 x.shortest.2).2), NumberChar c := by
    split
    · simp [NumberChar]
    · apply numberChar_layout
      intro c hc
      simp only [Binary64.significant, List.mem_reverse] at hc
      have hdigit := (List.dropWhile_suffix _).subset hc
      exact numberChar_of_mem_toDigits (List.mem_reverse.mp hdigit)
  simp only
  split
  · exact List.forall_mem_cons.mpr ⟨.inr (.inr (.inl rfl)), hbody⟩
  · exact hbody

theorem NumberChar.not_blank {c : Char} (h : NumberChar c) : isBlank c = false := by
  rcases h with h | rfl | rfl | rfl | rfl
  · cases hb : isBlank c with
    | false => rfl
    | true =>
      simp only [isBlank, Bool.or_eq_true, decide_eq_true_eq] at hb
      rcases hb with ((rfl | rfl) | rfl) | rfl <;> exact absurd h (by decide)
  all_goals rfl

theorem tokenAt_digit {c : Char} (h : c.isDigit = true) (cs : List Char) :
    tokenAt c cs = numberToken false (c :: cs) := by
  have hne : ∀ d : Char, d.isDigit = false → c ≠ d := by
    rintro d hd rfl
    exact absurd h (by simp [hd])
  have hmark : mark? c = none := by
    simp [mark?, hne '[' rfl, hne ']' rfl, hne '{' rfl, hne '}' rfl, hne ',' rfl, hne ':' rfl]
  simp only [tokenAt, hmark]
  rw [if_neg (hne '"' rfl), if_neg (hne '-' rfl), if_pos h]

theorem numberToken_cases (negative : Bool) (cs : List Char) :
    (∃ n r, numberToken negative cs = (.number n, r)) ∨
      ∃ b r, numberToken negative cs = (.bad b, r) := by
  unfold numberToken
  split
  · exact .inl ⟨_, _, rfl⟩
  · exact .inr ⟨_, _, rfl⟩

theorem NumberChar.tokenAt_cases {c : Char} (h : NumberChar c) (cs : List Char) :
    (∃ n r, tokenAt c cs = (.number n, r)) ∨ ∃ b r, tokenAt c cs = (.bad b, r) := by
  rcases h with h | rfl | rfl | rfl | rfl
  · rw [tokenAt_digit h]
    exact numberToken_cases false (c :: cs)
  · exact .inr ⟨_, _, rfl⟩
  · exact numberToken_cases true cs
  · exact .inr ⟨_, _, rfl⟩
  · exact .inr ⟨_, _, rfl⟩

theorem NumberChar.tokenAt_append {c : Char} (h : NumberChar c) {cs r rest : List Char}
    (hrest : EndsNumber rest) {n : Option Number} (htoken : tokenAt c cs = (.number n, r)) :
    tokenAt c (cs ++ rest) = (.number n, r ++ rest) := by
  rcases h with h | rfl | rfl | rfl | rfl
  · rw [tokenAt_digit h] at htoken ⊢
    exact numberToken_append hrest htoken
  · cases htoken
  · exact numberToken_append hrest htoken
  · cases htoken
  · cases htoken

theorem ofText_eq_ok {s : String} {j : Json} (h : ofText s = .ok j) :
    ∃ doc, Doc.parse s = (doc, false) ∧ doc.content = .ok j := by
  unfold ofText at h
  cases hp : Doc.parse s with | mk doc trailing
  rw [hp] at h
  simp only at h
  cases hc : doc.content with
  | error f => rw [hc] at h; cases h
  | ok i =>
    rw [hc] at h
    cases trailing with
    | true => cases h
    | false =>
      cases h
      exact ⟨doc, rfl, hc⟩

theorem lexes_float {x : Binary64} (h : (Number.float x).Legible) {rest : List Char}
    (hrest : EndsNumber rest) : Lexes (x.write ++ rest) (.number (some (.float x))) rest := by
  have hchars := numberChar_write x
  obtain ⟨doc, hparse, hcontent⟩ := ofText_eq_ok h
  rw [Doc.parse, String.toList_ofList] at hparse
  cases hw : x.write with
  | nil =>
    rw [hw, Doc.run, Doc.nextToken_eq_none rfl] at hparse
    cases hparse
    cases hcontent
  | cons c tail =>
    rw [hw] at hparse hchars
    have hc : NumberChar c := hchars c List.mem_cons_self
    have hskip : ∀ tail, skipBlanks (c :: tail) = c :: tail := by
      intro tail
      simp [skipBlanks, hc.not_blank]
    rw [Doc.run_cons (hskip tail)] at hparse
    rcases hc.tokenAt_cases tail with ⟨n, r, htoken⟩ | ⟨b, r, htoken⟩
    · rw [htoken] at hparse
      -- the text is this one token, so what it leaves is blank
      have hread : (Doc.number n, !(skipBlanks r).isEmpty) = (doc, false) := hparse
      rw [Prod.mk.injEq] at hread
      obtain ⟨rfl, htrailing⟩ := hread
      have hr : skipBlanks r = [] := by simpa using htrailing
      cases n with
      | none => cases hcontent
      | some n =>
        cases hcontent
        refine ⟨c, tail ++ rest, r ++ rest, hskip _, hc.tokenAt_append hrest htoken, ?_⟩
        exact skipBlanks_append (blanks_of_skipBlanks hr) rest
    · rw [htoken] at hparse
      have hdoc : Doc.broken b = doc := congrArg Prod.fst hparse
      rw [← hdoc] at hcontent
      cases hcontent

/-- **Legible numbers** are read back in front of what ends a number. -/
theorem lexes_number {n : Number} (h : n.Legible) {rest : List Char} (hrest : EndsNumber rest) :
    Lexes (n.write ++ rest) (.number (some n)) rest := by
  cases n with
  | float x => exact lexes_float h hrest
  | int n =>
    cases n with
    | ofNat n =>
      have hfits : n < Nat.pow 2 64 := by exact Int.ofNat_lt.mp h.2
      have htoken := numberToken_append hrest (numberToken_toDigits hfits)
      cases hds : Nat.toDigits 10 n with
      | nil => exact absurd hds Nat.toDigits_ne_nil
      | cons c ds =>
        have hdigit : c.isDigit = true :=
          Nat.isDigit_of_mem_toDigits (by decide) (by decide) (hds ▸ List.mem_cons_self)
        rw [hds] at htoken
        show Lexes (Nat.toDigits 10 n ++ rest) _ _
        rw [hds]
        apply Lexes.of_tokenAt
        · exact NumberChar.not_blank (.inl hdigit)
        · rw [tokenAt_digit hdigit]
          exact htoken
    | negSucc n =>
      have hfits : n + 1 ≤ Nat.pow 2 63 := by
        have := h.1
        omega
      have htoken := numberToken_append hrest (numberToken_toDigits_negative (Nat.succ_pos n) hfits)
      exact Lexes.of_tokenAt rfl htoken

end AgentMemory.Json
