import MethodBrowser.Proofs.Source.Text

/-!
# The lexical grammar

The marks of a text are those of a plain grammar (`classify_lexemes`). A text is a row of lexemes: a
string literal, a comment, the literal of one character, or any other character by itself. It may
break off in the middle of one, which leaves a loose end.

The marks of a lexeme do not depend on what stands around it. So a text has one marking, though it
may have several readings: `'it''s'` is a string with a quote in it, and it is also two strings in a
row.

**What a lexeme does to the reader.** It is entered in code mode and left in code mode
(`Lexeme.after_chars`), so what follows it is read as if it stood alone.
-/

namespace MethodBrowser

/-! ## Lexemes -/

/-- The characters of a string as they are written: a quote is written twice. -/
def doubled (payload : List Char) : List Char :=
  payload.flatMap fun c => if c = '\'' then ['\'', '\''] else [c]

/-- A part of a text that is read as a whole. -/
inductive Lexeme where
  /-- A character that opens nothing. -/
  | plain (c : Char) (h : c ≠ '\'' ∧ c ≠ '"' ∧ c ≠ '$')
  | string (payload : List Char)
  | comment (payload : List Char) (h : '"' ∉ payload)
  /-- The literal of a character. -/
  | character (c : Char)

/-- What a text may break off in. -/
inductive LooseEnd where
  | string (payload : List Char)
  | comment (payload : List Char) (h : '"' ∉ payload)
  | dollar

/-- A row of lexemes, and what is left at its end. -/
structure Reading where
  lexemes : List Lexeme
  looseEnd : Option LooseEnd

/-- The same mark for each byte of some characters. -/
def marked (k : Kind) (cs : List Char) : List Kind := List.replicate (String.utf8Len cs) k

namespace Lexeme

/-- The characters of a lexeme. -/
def chars : Lexeme → List Char
  | plain c _ => [c]
  | string payload => '\'' :: doubled payload ++ ['\'']
  | comment payload _ => '"' :: payload ++ ['"']
  | character c => ['$', c]

/-- The marks of the bytes of a lexeme. -/
def kinds : Lexeme → List Kind
  | plain c _ => marked .code [c]
  | string payload => marked .string ('\'' :: doubled payload ++ ['\''])
  | comment payload _ => marked .comment ('"' :: payload ++ ['"'])
  | character c => .code :: marked .string [c]

end Lexeme

namespace LooseEnd

def chars : LooseEnd → List Char
  | string payload => '\'' :: doubled payload
  | comment payload _ => '"' :: payload
  | dollar => ['$']

def kinds : LooseEnd → List Kind
  | string payload => marked .string ('\'' :: doubled payload)
  | comment payload _ => marked .comment ('"' :: payload)
  | dollar => [.code]

end LooseEnd

namespace Reading

def chars (r : Reading) : List Char :=
  r.lexemes.flatMap Lexeme.chars ++ (r.looseEnd.map LooseEnd.chars).getD []

/-- The text that is read. -/
def text (r : Reading) : String := String.ofList r.chars

def kinds (r : Reading) : List Kind :=
  r.lexemes.flatMap Lexeme.kinds ++ (r.looseEnd.map LooseEnd.kinds).getD []

/-- One more lexeme in front. -/
def cons (l : Lexeme) (r : Reading) : Reading := ⟨l :: r.lexemes, r.looseEnd⟩

theorem chars_cons (l : Lexeme) (r : Reading) : (r.cons l).chars = l.chars ++ r.chars := by
  simp [chars, cons]

end Reading

/-- The marks of a source, byte by byte. -/
def Source.kinds (src : Source) : List Kind := src.cells.toList.map (·.kind)

/-! ## Reading on in one mode -/

/-- The marks of a text whose reader is in mode `m`. -/
def kindsFrom (m : Mode) (cs : List Char) : List Kind := (classify m cs).map (·.kind)

theorem kindsFrom_cons (m : Mode) (c : Char) (cs : List Char) :
    kindsFrom m (c :: cs) = marked (m.kind c) [c] ++ kindsFrom (m.next c) cs := by
  have hbytes : ∀ bytes : List UInt8, bytes.map (fun _ => m.kind c) =
      List.replicate bytes.length (m.kind c) := fun bytes => List.map_const' ..
  simp only [kindsFrom, classify, List.map_append, List.map_map, marked, String.utf8Len_cons,
    String.utf8Len_nil, Nat.zero_add]
  congr 1
  rw [← String.length_utf8EncodeChar]
  exact hbytes _

theorem kindsFrom_append (m : Mode) (l r : List Char) :
    kindsFrom m (l ++ r) = kindsFrom m l ++ kindsFrom (m.after l) r := by
  rw [kindsFrom, classify_append, List.map_append]
  rfl

theorem marked_cons (k : Kind) (c : Char) (cs : List Char) :
    marked k (c :: cs) = marked k [c] ++ marked k cs := by
  simp only [marked, String.utf8Len_cons, String.utf8Len_nil, List.replicate_append_replicate]
  congr 1
  omega

theorem marked_append (k : Kind) (l r : List Char) : marked k (l ++ r) = marked k l ++ marked k r := by
  simp [marked, String.utf8Len_append]

/-- Characters after which the mode is the same as before, all with one mark. -/
structure Mode.Stays (m : Mode) (k : Kind) (cs : List Char) : Prop where
  after : m.after cs = m
  kinds : kindsFrom m cs = marked k cs

namespace Mode.Stays

variable {m : Mode} {k : Kind} {l r : List Char}

theorem nil (m : Mode) (k : Kind) : m.Stays k [] := ⟨rfl, rfl⟩

theorem append (hl : m.Stays k l) (hr : m.Stays k r) : m.Stays k (l ++ r) := by
  constructor
  · rw [after_append, hl.after, hr.after]
  · rw [kindsFrom_append, hl.after, hl.kinds, hr.kinds, marked_append]

theorem flatMap {α : Type} {f : α → List Char} {as : List α} (h : ∀ a ∈ as, m.Stays k (f a)) :
    m.Stays k (as.flatMap f) := by
  induction as with
  | nil => exact nil m k
  | cons a as ih =>
    rw [List.forall_mem_cons] at h
    exact h.1.append (ih h.2)

end Mode.Stays

theorem Mode.stays_char {m : Mode} {c : Char} (h : m.next c = m) : m.Stays (m.kind c) [c] := by
  refine ⟨h, ?_⟩
  rw [kindsFrom_cons, h]
  exact List.append_nil _

theorem next_string {c : Char} (h : c ≠ '\'') : Mode.string.next c = .string := by
  unfold Mode.next
  split <;> simp_all

theorem next_comment {c : Char} (h : c ≠ '"') : Mode.comment.next c = .comment := by
  unfold Mode.next
  split <;> simp_all

/-- A string is not left inside its payload: a doubled quote leads out of it and back in. -/
theorem stays_doubled (payload : List Char) : Mode.string.Stays .string (doubled payload) := by
  refine .flatMap fun c _ => ?_
  by_cases hc : c = '\''
  · rw [if_pos hc]
    exact ⟨rfl, rfl⟩
  · rw [if_neg hc]
    exact Mode.stays_char (next_string hc)

theorem stays_comment {payload : List Char} (h : '"' ∉ payload) :
    Mode.comment.Stays .comment payload := by
  have hchars : Mode.comment.Stays .comment (payload.flatMap fun c => [c]) :=
    .flatMap fun c hc => Mode.stays_char (next_comment (ne_of_mem_of_not_mem hc h))
  rwa [List.flatMap_singleton'] at hchars

/-! ## The marks of a lexeme -/

/-- The mark of an opening quote is that of what it opens. -/
theorem kindsFrom_open {m : Mode} {k : Kind} {quote : Char} {cs : List Char}
    (hnext : Mode.code.next quote = m) (hkind : Mode.code.kind quote = k)
    (hcs : kindsFrom m cs = marked k cs) :
    kindsFrom .code (quote :: cs) = marked k (quote :: cs) := by
  rw [kindsFrom_cons, hnext, hkind, hcs, ← marked_cons]

/-- A closing quote has the mark of what it closes. -/
theorem Mode.Stays.kinds_close {m : Mode} {k : Kind} {quote : Char} {cs : List Char}
    (h : m.Stays k cs) (hkind : m.kind quote = k) :
    kindsFrom m (cs ++ [quote]) = marked k (cs ++ [quote]) := by
  rw [kindsFrom_append, h.after, h.kinds, kindsFrom_cons, hkind, marked_append]
  exact congrArg (marked k cs ++ ·) (List.append_nil _)

namespace Lexeme

theorem after_chars (l : Lexeme) : Mode.code.after l.chars = .code := by
  cases l with
  | plain c h =>
    change Mode.code.next c = .code
    unfold Mode.next
    split <;> simp_all
  | string payload =>
    change Mode.string.after (doubled payload ++ ['\'']) = .code
    rw [Mode.after_append, (stays_doubled payload).after]
    rfl
  | comment payload h =>
    change Mode.comment.after (payload ++ ['"']) = .code
    rw [Mode.after_append, (stays_comment h).after]
    rfl
  | character c => rfl

theorem kindsFrom_chars (l : Lexeme) : kindsFrom .code l.chars = l.kinds := by
  cases l with
  | plain c h =>
    have hkind : Mode.code.kind c = .code := by
      unfold Mode.kind
      split <;> simp_all
    rw [chars, kinds, kindsFrom_cons, hkind]
    exact List.append_nil _
  | string payload => exact kindsFrom_open rfl rfl ((stays_doubled payload).kinds_close rfl)
  | comment payload h => exact kindsFrom_open rfl rfl ((stays_comment h).kinds_close rfl)
  | character c =>
    rw [chars, kinds, kindsFrom_cons, kindsFrom_cons]
    exact congrArg (Kind.code :: ·) (List.append_nil _)

end Lexeme

theorem LooseEnd.kindsFrom_chars (e : LooseEnd) : kindsFrom .code e.chars = e.kinds := by
  cases e with
  | string payload => exact kindsFrom_open rfl rfl (stays_doubled payload).kinds
  | comment payload h => exact kindsFrom_open rfl rfl (stays_comment h).kinds
  | dollar => rfl

/-- The marks of a reading are those of its parts, one after the other. -/
theorem Reading.kindsFrom_chars (r : Reading) : kindsFrom .code r.chars = r.kinds := by
  obtain ⟨lexemes, looseEnd⟩ := r
  induction lexemes with
  | nil =>
    cases looseEnd with
    | none => rfl
    | some e => exact e.kindsFrom_chars
  | cons l lexemes ih =>
    rw [show (⟨l :: lexemes, looseEnd⟩ : Reading) = Reading.cons l ⟨lexemes, looseEnd⟩ from rfl,
      chars_cons, kindsFrom_append, l.after_chars, l.kindsFrom_chars, ih]
    simp [kinds, cons]

/-! ## Every text has a reading -/

theorem doubled_eq_self {payload : List Char} (h : '\'' ∉ payload) : doubled payload = payload := by
  induction payload with
  | nil => rfl
  | cons c payload ih =>
    rw [List.mem_cons, not_or] at h
    rw [doubled, List.flatMap_cons, if_neg fun heq => h.1 heq.symm]
    exact congrArg (c :: ·) (ih h.2)

/-- A text starts with a lexeme or is a loose end. -/
theorem exists_lexeme {cs : List Char} (h : cs ≠ []) :
    (∃ (l : Lexeme) (rest : List Char), cs = l.chars ++ rest ∧ rest.length < cs.length) ∨
      ∃ e : LooseEnd, cs = e.chars := by
  obtain ⟨c, cs, rfl⟩ := List.exists_cons_of_ne_nil h
  by_cases hstring : c = '\''
  · subst hstring
    by_cases hmem : '\'' ∈ cs
    · obtain ⟨payload, rest, rfl, hnot⟩ := List.eq_append_cons_of_mem hmem
      refine .inl ⟨.string payload, rest, ?_, ?_⟩
      · simp [Lexeme.chars, doubled_eq_self hnot]
      · simp only [List.length_append, List.length_cons]
        omega
    · exact .inr ⟨.string cs, by rw [LooseEnd.chars, doubled_eq_self hmem]⟩
  · by_cases hcomment : c = '"'
    · subst hcomment
      by_cases hmem : '"' ∈ cs
      · obtain ⟨payload, rest, rfl, hnot⟩ := List.eq_append_cons_of_mem hmem
        refine .inl ⟨.comment payload hnot, rest, by simp [Lexeme.chars], ?_⟩
        simp only [List.length_append, List.length_cons]
        omega
      · exact .inr ⟨.comment cs hmem, rfl⟩
    · by_cases hdollar : c = '$'
      · subst hdollar
        cases cs with
        | nil => exact .inr ⟨.dollar, rfl⟩
        | cons c cs =>
          refine .inl ⟨.character c, cs, rfl, ?_⟩
          simp only [List.length_cons]
          omega
      · exact .inl ⟨.plain c ⟨hstring, hcomment, hdollar⟩, cs, rfl, by simp⟩

theorem exists_reading (cs : List Char) : ∃ r : Reading, r.chars = cs := by
  induction hn : cs.length using Nat.strongRecOn generalizing cs with
  | ind n ih =>
    by_cases hnil : cs = []
    · exact ⟨⟨[], none⟩, hnil.symm⟩
    · rcases exists_lexeme hnil with ⟨l, rest, rfl, hlt⟩ | ⟨e, rfl⟩
      · obtain ⟨r, rfl⟩ := ih rest.length (by omega) rest rfl
        exact ⟨r.cons l, r.chars_cons l⟩
      · exact ⟨⟨[], some e⟩, rfl⟩

/-! ## The theorem -/

/-- The marks of a text are those of its lexemes, and every text consists of lexemes. -/
theorem classify_lexemes :
    (∀ r : Reading, (Source.ofText r.text).kinds = r.kinds) ∧
      ∀ text : String, ∃ r : Reading, r.text = text := by
  constructor
  · intro r
    have hcells := (Source.ofText r.text).cells_eq
    rw [Source.kinds, hcells, ← r.kindsFrom_chars]
    simp [Source.ofText, Reading.text, kindsFrom]
  · intro text
    obtain ⟨r, hr⟩ := exists_reading text.toList
    exact ⟨r, by rw [Reading.text, hr, String.ofList_toList]⟩

/-- A quote inside a string cannot be told from two strings in a row. -/
example : Reading.chars ⟨[.string "it's".toList], none⟩ =
    Reading.chars ⟨[.string "it".toList, .string "s".toList], none⟩ := by
  decide

end MethodBrowser
