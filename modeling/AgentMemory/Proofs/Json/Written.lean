import AgentMemory.Proofs.Json.Reading
import AgentMemory.Proofs.Json.Value

/-!
# Written values are read back

The text of a value, in a layout that adds only blanks, is read as the document of that value: as a
whole text, as an entry of an array and as the value of a member. This needs every number in the
value to be legible and the containers to stay within the depth that is read.
-/

namespace AgentMemory.Json

/-! ## Layouts -/

/-- A layout adds nothing but blanks. -/
structure Layout.Plain (l : Layout) : Prop where
  lead (depth : Nat) : Blanks (l.lead depth)
  colon : ∃ bs, l.colon = ':' :: bs ∧ Blanks bs

theorem Layout.compact_plain : Layout.compact.Plain where
  lead _ := blanks_nil
  colon := ⟨[], rfl, blanks_nil⟩

theorem Layout.pretty_plain : Layout.pretty.Plain where
  lead depth := by
    intro c hc
    rcases List.mem_cons.mp hc with rfl | hc
    · rfl
    · rw [List.eq_of_mem_replicate hc]
      rfl
  colon := by
    refine ⟨[' '], rfl, ?_⟩
    intro c hc
    rw [List.mem_singleton.mp hc]
    rfl

theorem endsNumber_blanks {bs cs : List Char} (hbs : Blanks bs) (h : EndsNumber cs) :
    EndsNumber (bs ++ cs) := by
  cases bs with
  | nil => exact h
  | cons b bs =>
    have hb := hbs b List.mem_cons_self
    simp only [isBlank, Bool.or_eq_true, decide_eq_true_eq] at hb
    rcases hb with ((rfl | rfl) | rfl) | rfl <;> exact ⟨rfl, by decide, by decide, by decide⟩

theorem endsNumber_items (l : Layout) (depth : Nat) (js : List Json) {bs : List Char}
    (hbs : Blanks bs) (rest : List Char) :
    EndsNumber (writeItems l depth js ++ (bs ++ ']' :: rest)) := by
  cases js with
  | nil =>
    apply endsNumber_blanks hbs
    exact ⟨rfl, by decide, by decide, by decide⟩
  | cons j js => exact ⟨rfl, by decide, by decide, by decide⟩

theorem endsNumber_members (l : Layout) (depth : Nat) (ms : List (String × Json))
    {bs : List Char} (hbs : Blanks bs) (rest : List Char) :
    EndsNumber (writeMembers l depth ms ++ (bs ++ '}' :: rest)) := by
  cases ms with
  | nil =>
    apply endsNumber_blanks hbs
    exact ⟨rfl, by decide, by decide, by decide⟩
  | cons m ms => exact ⟨rfl, by decide, by decide, by decide⟩

/-! ## Values where they are awaited -/

/-- Whether a value can start with the token. -/
def Token.StartsValue : Token → Prop
  | .null | .bool _ | .number _ | .text _ | .openArray | .openObject => True
  | _ => False

namespace Doc

/-- A value may come next. -/
def Awaits (phase : Phase) (frames : List Frame) : Prop :=
  ∀ t : Token, t.StartsValue → step phase frames t = stepValue frames t

theorem awaits_value (frames : List Frame) : Awaits .value frames := by
  intro t ht
  cases frames <;> rfl

theorem awaits_opening (deep : Bool) (items : List Doc) (frames : List Frame) :
    Awaits .opening (.array deep items :: frames) := by
  intro t ht
  cases t <;> first | rfl | exact ht.elim

theorem awaits_entry (deep : Bool) (items : List Doc) (frames : List Frame) :
    Awaits .entry (.array deep items :: frames) :=
  fun _ _ => rfl

/-- The text is read as the document of a value wherever a value may come next and its containers
stay within the depth that is read. -/
def Reads (text : List Char) (j : Json) : Prop :=
  ∀ {phase : Phase} {frames : List Frame} {bs : List Char} (rest : List Char),
    Awaits phase frames → frames.length + j.depth ≤ maxDepth → Blanks bs → EndsNumber rest →
    run phase frames (bs ++ (text ++ rest)) = resume rest (finish (ofJson j) frames)

theorem reads_token {text : List Char} {j : Json} (t : Token) (ht : t.StartsValue)
    (hstep : ∀ frames, stepValue frames t = finish (ofJson j) frames)
    (hlex : ∀ rest, EndsNumber rest → Lexes (text ++ rest) t rest) : Reads text j := by
  intro phase frames bs rest hphase _ hbs hrest
  rw [run_lexes ((hlex rest hrest).blanks hbs), hphase t ht, hstep]

variable {l : Layout} {frames : List Frame}

/-! ## Arrays -/

theorem run_items {depth : Nat} (hl : l.Plain) (js : List Json)
    (hjs : ∀ j ∈ js, Reads (write l depth j) j)
    (hdepth : frames.length + 1 + depthItems js ≤ maxDepth) (acc : List Doc)
    {bs : List Char} (hbs : Blanks bs) (rest : List Char) :
    run .separator (.array false acc :: frames) (writeItems l depth js ++ (bs ++ ']' :: rest)) =
      resume rest (finish (.array false (acc.reverse ++ ofItems js) .closed) frames) := by
  induction js generalizing acc with
  | nil =>
    have hclose : Lexes (']' :: rest) .closeArray rest := Lexes.of_tokenAt rfl rfl
    rw [writeItems, List.nil_append, run_lexes (hclose.blanks hbs), ofItems, List.append_nil]
    rfl
  | cons j js ih =>
    simp only [depthItems] at hdepth
    have hcomma : ∀ tail, Lexes (',' :: tail) .comma tail := fun _ => Lexes.of_tokenAt rfl rfl
    have hfits : (Frame.array false acc :: frames).length + j.depth ≤ maxDepth := by
      rw [List.length_cons]
      omega
    have hitem := hjs j List.mem_cons_self _ (awaits_entry false acc frames) hfits (hl.lead depth)
      (endsNumber_items l depth js hbs rest)
    have hitems := ih (fun i hi => hjs i (List.mem_cons_of_mem j hi)) (by omega) (ofJson j :: acc)
    simp only [writeItems, List.cons_append, List.append_assoc]
    rw [run_lexes (hcomma _)]
    refine hitem.trans (hitems.trans ?_)
    simp [ofItems]

theorem reads_array (hl : l.Plain) {depth : Nat} (items : List Json)
    (hitems : ∀ j ∈ items, ∀ depth, Reads (write l depth j) j) :
    Reads (write l depth (.array items)) (.array items) := by
  intro phase frames bs rest hphase hdepth hbs hrest
  simp only [Json.depth] at hdepth
  have hopen : ∀ tail, Lexes ('[' :: tail) .openArray tail := fun _ => Lexes.of_tokenAt rfl rfl
  have hdeep : decide (maxDepth ≤ frames.length) = false := decide_eq_false (by omega)
  have hstep : step phase frames .openArray = .next .opening (.array false [] :: frames) := by
    rw [hphase .openArray trivial, stepValue, hdeep]
  cases items with
  | nil =>
    have hclose : Lexes (']' :: rest) .closeArray rest := Lexes.of_tokenAt rfl rfl
    simp only [write, List.cons_append, List.nil_append]
    rw [run_lexes ((hopen _).blanks hbs), hstep, resume, run_lexes hclose]
    rfl
  | cons j js =>
    simp only [depthItems] at hdepth
    have hitem := hitems j List.mem_cons_self (depth + 1) _ (awaits_opening false [] frames)
      (by simp only [List.length_cons]; omega) (hl.lead (depth + 1))
      (endsNumber_items l (depth + 1) js (hl.lead depth) rest)
    have hfurther : frames.length + 1 + depthItems js ≤ maxDepth := by omega
    have hrun := run_items hl js (fun i hi => hitems i (List.mem_cons_of_mem j hi) (depth + 1))
      hfurther [ofJson j] (hl.lead depth) rest
    simp only [write, List.cons_append, List.nil_append, List.append_assoc]
    rw [run_lexes ((hopen _).blanks hbs), hstep, resume]
    exact hitem.trans hrun

/-! ## Objects -/

theorem run_member {depth : Nat} (hl : l.Plain) (phase : Phase) (ms : List (Key × Doc))
    (hphase : ∀ s, step phase (.object false ms :: frames) (.text s) =
      stepKey false ms frames (.text s))
    (k : String) {j : Json} (hj : Reads (write l depth j) j)
    (hdepth : frames.length + 1 + j.depth ≤ maxDepth) {bs rest : List Char} (hbs : Blanks bs)
    (hrest : EndsNumber rest) :
    run phase (.object false ms :: frames)
        (bs ++ (quote k ++ (l.colon ++ (write l depth j ++ rest)))) =
      run .separator (.object false ((.ok k, ofJson j) :: ms) :: frames) rest := by
  obtain ⟨blanks, hcolon, hblanks⟩ := hl.colon
  have hmark : ∀ tail, Lexes (':' :: tail) .colon tail := fun _ => Lexes.of_tokenAt rfl rfl
  have hvalue := hj rest (awaits_value (.member false ms (.ok k) :: frames))
    (by simp only [List.length_cons]; omega) hblanks hrest
  rw [run_lexes ((lexes_quote k _).blanks hbs), hphase, hcolon, stepKey, resume, List.cons_append,
    run_lexes (hmark _)]
  exact hvalue

theorem run_members {depth : Nat} (hl : l.Plain) (ms : List (String × Json))
    (hms : ∀ m ∈ ms, Reads (write l depth m.2) m.2)
    (hdepth : frames.length + 1 + depthMembers ms ≤ maxDepth) (acc : List (Key × Doc))
    {bs : List Char} (hbs : Blanks bs) (rest : List Char) :
    run .separator (.object false acc :: frames)
        (writeMembers l depth ms ++ (bs ++ '}' :: rest)) =
      resume rest (finish (.object false (acc.reverse ++ ofMembers ms) .closed) frames) := by
  induction ms generalizing acc with
  | nil =>
    have hclose : Lexes ('}' :: rest) .closeObject rest := Lexes.of_tokenAt rfl rfl
    rw [writeMembers, List.nil_append, run_lexes (hclose.blanks hbs), ofMembers, List.append_nil]
    rfl
  | cons m ms ih =>
    obtain ⟨k, j⟩ := m
    simp only [depthMembers] at hdepth
    have hcomma : ∀ tail, Lexes (',' :: tail) .comma tail := fun _ => Lexes.of_tokenAt rfl rfl
    have hj : Reads (write l depth j) j := hms (k, j) List.mem_cons_self
    have hfits : frames.length + 1 + j.depth ≤ maxDepth := by omega
    have hmember := run_member hl .entry acc (fun s => rfl) k hj hfits (hl.lead depth)
      (endsNumber_members l depth ms hbs rest)
    have hmembers := ih (fun m hm => hms m (List.mem_cons_of_mem _ hm)) (by omega)
      ((.ok k, ofJson j) :: acc)
    simp only [writeMembers, List.cons_append, List.append_assoc]
    rw [run_lexes (hcomma _)]
    refine hmember.trans (hmembers.trans ?_)
    simp [ofMembers]

theorem reads_object (hl : l.Plain) {depth : Nat} (members : List (String × Json))
    (hmembers : ∀ m ∈ members, ∀ depth, Reads (write l depth m.2) m.2) :
    Reads (write l depth (.object members)) (.object members) := by
  intro phase frames bs rest hphase hdepth hbs hrest
  simp only [Json.depth] at hdepth
  have hopen : ∀ tail, Lexes ('{' :: tail) .openObject tail := fun _ => Lexes.of_tokenAt rfl rfl
  have hdeep : decide (maxDepth ≤ frames.length) = false := decide_eq_false (by omega)
  have hstep : step phase frames .openObject = .next .opening (.object false [] :: frames) := by
    rw [hphase .openObject trivial, stepValue, hdeep]
  cases members with
  | nil =>
    have hclose : Lexes ('}' :: rest) .closeObject rest := Lexes.of_tokenAt rfl rfl
    simp only [write, List.cons_append, List.nil_append]
    rw [run_lexes ((hopen _).blanks hbs), hstep, resume, run_lexes hclose]
    rfl
  | cons m ms =>
    obtain ⟨k, j⟩ := m
    simp only [depthMembers] at hdepth
    have hj : Reads (write l (depth + 1) j) j := hmembers (k, j) List.mem_cons_self (depth + 1)
    have hfits : frames.length + 1 + j.depth ≤ maxDepth := by omega
    have hfurther : frames.length + 1 + depthMembers ms ≤ maxDepth := by omega
    have hmember := run_member hl .opening [] (fun s => rfl) k hj hfits (hl.lead (depth + 1))
      (endsNumber_members l (depth + 1) ms (hl.lead depth) rest)
    have hrun := run_members hl ms (fun m hm => hmembers m (List.mem_cons_of_mem _ hm) (depth + 1))
      hfurther [(.ok k, ofJson j)] (hl.lead depth) rest
    simp only [write, List.cons_append, List.nil_append, List.append_assoc]
    rw [run_lexes ((hopen _).blanks hbs), hstep, resume]
    exact hmember.trans hrun

/-! ## All values -/

/-- **Written values**: the text of a value in a plain layout is read as its document. -/
theorem reads_write (hl : l.Plain) (j : Json) (hj : ∀ n ∈ j.numbers, n.Legible) (depth : Nat) :
    Reads (write l depth j) j := by
  -- the depth of the layout grows with the nesting
  induction j using Json.induct generalizing depth with
  | null => exact reads_token .null trivial (fun _ => rfl) fun _ _ => Lexes.of_tokenAt rfl rfl
  | bool b =>
    cases b with
    | true =>
      exact reads_token (.bool true) trivial (fun _ => rfl) fun _ _ => Lexes.of_tokenAt rfl rfl
    | false =>
      exact reads_token (.bool false) trivial (fun _ => rfl) fun _ _ => Lexes.of_tokenAt rfl rfl
  | number n =>
    have hn : n.Legible := hj n (List.mem_singleton.mpr rfl)
    show Reads n.write (.number n)
    refine reads_token (.number (some n)) trivial (fun _ => rfl) ?_
    intro rest hrest
    exact lexes_number hn hrest
  | string s =>
    exact reads_token (.text (some s)) trivial (fun _ => rfl) fun rest _ => lexes_quote s rest
  | array items ih =>
    apply reads_array hl
    intro j hmem depth
    exact ih j hmem (fun n hn => hj n (mem_numbersItems hmem hn)) depth
  | object members ih =>
    apply reads_object hl
    intro m hmem depth
    exact ih m hmem (fun n hn => hj n (mem_numbersMembers hmem hn)) depth

/-- **A written text** is the document of its value, with nothing after it. -/
theorem parse_write (hl : l.Plain) {j : Json} (hj : ∀ n ∈ j.numbers, n.Legible)
    (hdepth : j.depth ≤ maxDepth) : parse (String.ofList (write l 0 j)) = (ofJson j, false) := by
  have hfits : ([] : List Frame).length + j.depth ≤ maxDepth := by simpa using hdepth
  have hread := reads_write hl j hj 0 [] (awaits_value []) hfits blanks_nil trivial
  rw [List.nil_append, List.append_nil] at hread
  rw [parse, String.toList_ofList, hread]
  rfl

end Doc
end AgentMemory.Json
