import Mathlib.Data.List.TakeWhile
import MethodBrowser.Json.Basic
import MethodBrowser.Json.Reader

/-!
# Reading values back

What is written is read back, whatever stands after it (`Json.Rereads`).

**Strings.** Each character is escaped by itself, and each escape is read as the character that it
stands for (`Json.readChars_escaped`).

**Objects.** The members are read one by one, and each changes a state: the dictionary or the record
read so far. A list of members leads from one state to another (`Json.Leads`) if each of them is
read back where it stands. Then the object as a whole is read back (`Json.readMembers_obj`).

Repetitions are bounded by what is left to read. The bound is never met, since every member and
every character of a string takes up some of it.
-/

namespace MethodBrowser.Json

open Text (hexValue?)

variable {α σ ρ : Type}

/-! ## Strings -/

theorem hexValue?_hexDigit {k : Nat} (h : k < 16) : hexValue? (hexDigit k) = some k := by
  have hall : ∀ k < 16, hexValue? (hexDigit k) = some k := by decide
  exact hall k h

/-- The code unit of a control character. -/
theorem readUnit_control {n : Nat} (h : n < 0x20) (rest : List Char) :
    readUnit ('0' :: '0' :: hexDigit (n / 16) :: hexDigit (n % 16) :: rest) = .ok (n, rest) := by
  have hzero : hexValue? '0' = some 0 := by decide
  simp only [readUnit, hzero, hexValue?_hexDigit (show n / 16 < 16 by omega),
    hexValue?_hexDigit (show n % 16 < 16 by omega)]
  congr 2
  omega

/-- The escape of a character is read as that character. -/
theorem readEscape_control {c : Char} (h : c.toNat < 0x20) (rest : List Char) :
    readEscape true
        ('u' :: '0' :: '0' :: hexDigit (c.toNat / 16) :: hexDigit (c.toNat % 16) :: rest) =
      .ok (c, rest) := by
  have hlow : isLowSurrogate c.toNat = false := by
    simp only [isLowSurrogate, Bool.and_eq_false_iff, decide_eq_false_iff_not]
    omega
  have hhigh : isHighSurrogate c.toNat = false := by
    simp only [isHighSurrogate, Bool.and_eq_false_iff, decide_eq_false_iff_not]
    omega
  simp [readEscape, readPaired, readUnit_control h, hlow, hhigh, bind, Except.bind, pure,
    Except.pure, Char.ofNat_toNat]

/-- A character is written as itself, or as a backslash and something that is read as the
character. -/
theorem escapeChar_cases (c : Char) :
    (escapeChar c = [c] ∧ c ≠ '"' ∧ c ≠ '\\' ∧ ¬c.toNat < 0x20) ∨
      ∃ e, escapeChar c = '\\' :: e ∧ ∀ rest, readEscape true (e ++ rest) = .ok (c, rest) := by
  unfold escapeChar
  split
  · next h => exact .inr ⟨['"'], rfl, fun rest => by simp [readEscape, h]⟩
  split
  · next h => exact .inr ⟨['\\'], rfl, fun rest => by simp [readEscape, h]⟩
  split
  · next h => exact .inr ⟨['n'], rfl, fun rest => by simp [readEscape, h]⟩
  split
  · next h => exact .inr ⟨['r'], rfl, fun rest => by simp [readEscape, h]⟩
  split
  · next h => exact .inr ⟨['t'], rfl, fun rest => by simp [readEscape, h]⟩
  split
  · next h =>
    have hc : Char.ofNat 0x08 = c := h ▸ Char.ofNat_toNat c
    exact .inr ⟨['b'], rfl, fun rest => congrArg (fun x => Except.ok (x, rest)) hc⟩
  split
  · next h =>
    have hc : Char.ofNat 0x0c = c := h ▸ Char.ofNat_toNat c
    exact .inr ⟨['f'], rfl, fun rest => congrArg (fun x => Except.ok (x, rest)) hc⟩
  split
  · next h => exact .inr ⟨_, rfl, fun rest => readEscape_control h rest⟩
  · next hquote hbackslash _ _ _ _ _ hcontrol => exact .inl ⟨rfl, hquote, hbackslash, hcontrol⟩

/-- The characters of a string are read back up to its closing quote. -/
theorem readChars_escaped (s rest : List Char) {n : Nat} (h : s.length < n) :
    readChars true n (s.flatMap escapeChar ++ '"' :: rest) = .ok (s, rest) := by
  induction s generalizing n with
  | nil =>
    obtain ⟨n, rfl⟩ : ∃ k, n = k + 1 := ⟨n - 1, by simp only [List.length_nil] at h; omega⟩
    rfl
  | cons c s ih =>
    rw [List.length_cons] at h
    obtain ⟨n, rfl⟩ : ∃ k, n = k + 1 := ⟨n - 1, by omega⟩
    have hrest := ih (n := n) (by omega)
    rcases escapeChar_cases c with ⟨heq, hquote, hbackslash, hcontrol⟩ | ⟨e, heq, he⟩
    · simp [heq, readChars, hquote, hbackslash, hcontrol, hrest, bind, Except.bind, pure,
        Except.pure]
    · simp [heq, readChars, he, hrest, bind, Except.bind, pure, Except.pure]

theorem length_le_escaped (s : List Char) : s.length ≤ (s.flatMap escapeChar).length := by
  induction s with
  | nil => simp
  | cons c s ih =>
    have hpos : 1 ≤ (escapeChar c).length := by
      rcases escapeChar_cases c with ⟨heq, -⟩ | ⟨e, heq, -⟩ <;> simp [heq]
    simp only [List.length_cons, List.flatMap_cons, List.length_append]
    omega

theorem toList_quote (s : String) :
    (quote s).toList = '"' :: (s.toList.flatMap escapeChar ++ ['"']) := by
  simp [quote]

/-- A string is read back from what follows its opening quote. -/
theorem readString_escaped (s : String) (rest : List Char) :
    readString (s.toList.flatMap escapeChar ++ '"' :: rest) = .ok (s, rest) := by
  have hlen := length_le_escaped s.toList
  rw [readString, readChars_escaped]
  · simp [bind, Except.bind, pure, Except.pure]
  · simp only [List.length_append, List.length_cons]
    omega

theorem readKey_quote (s : String) (rest : List Char) :
    readKey ((quote s).toList ++ rest) = .ok (s, rest) := by
  rw [toList_quote, List.cons_append, List.append_assoc]
  exact readString_escaped s rest

/-! ## Values -/

theorem skipBlanks_newline (level : Nat) (cs : List Char) :
    skipBlanks ((newline level).toList ++ cs) = skipBlanks cs := by
  rw [newline, String.toList_ofList, skipBlanks, List.dropWhile_append_of_pos]
  · rfl
  · intro c hc
    rcases List.mem_cons.1 hc with rfl | hc
    · decide
    · rw [(List.mem_replicate.1 hc).2]
      decide

/-- The reader finds `a` in every text that starts with `json`, and leaves what follows it. White
space may stand before it. -/
def Rereads (read : Reader α) (json : Json) (a : α) : Prop :=
  ∀ level cs rest, skipBlanks cs = skipBlanks ((prettyAt level json).toList ++ rest) →
    read cs = .ok (a, rest)

theorem toList_prettyAt_str (level : Nat) (s : String) (rest : List Char) :
    (prettyAt level (.str s)).toList ++ rest =
      '"' :: (s.toList.flatMap escapeChar ++ '"' :: rest) := by
  simp [prettyAt, toList_quote]

theorem rereads_str (s : String) : Rereads readStr (.str s) s := by
  intro level cs rest h
  rw [toList_prettyAt_str] at h
  rw [readStr, h]
  exact readString_escaped s rest

theorem rereads_optional (s : Option String) : Rereads readStrOrNull (optional .str s) s := by
  intro level cs rest h
  cases s with
  | none =>
    have hnull : (prettyAt level .null).toList ++ rest = 'n' :: 'u' :: 'l' :: 'l' :: rest := by
      simp [prettyAt]
    rw [optional, hnull] at h
    rw [readStrOrNull, h]
    rfl
  | some s =>
    have hs := rereads_str s level _ rest rfl
    rw [optional, toList_prettyAt_str] at h
    rw [toList_prettyAt_str] at hs
    have hopen : skipBlanks cs = '"' :: (s.toList.flatMap escapeChar ++ '"' :: rest) := h
    simp [readStrOrNull, hopen, hs, bind, Except.bind, pure, Except.pure]

theorem rereads_bool (b : Bool) : Rereads readBool (.bool b) b := by
  intro level cs rest h
  cases b with
  | false =>
    have hfalse : (prettyAt level (.bool false)).toList ++ rest =
        'f' :: 'a' :: 'l' :: 's' :: 'e' :: rest := by
      simp [prettyAt]
    rw [readBool, h, hfalse]
    rfl
  | true =>
    have htrue : (prettyAt level (.bool true)).toList ++ rest =
        't' :: 'r' :: 'u' :: 'e' :: rest := by
      simp [prettyAt]
    rw [readBool, h, htrue]
    rfl

/-- A value that is read back can be put into something larger. -/
theorem Rereads.put {β : Type} {read : Reader α} {json : Json} {a : α} (h : Rereads read json a)
    (f : α → β) :
    Rereads (fun cs => do
      let (x, cs) ← read cs
      return (f x, cs)) json (f a) := by
  intro level cs rest hcs
  simp [h level cs rest hcs, bind, Except.bind, pure, Except.pure]

/-! ## Members -/

/-- Reading the members of an object one after the other leads from the first state to the second
one. -/
inductive Leads (member : String → σ → Reader σ) : σ → List (String × Json) → σ → Prop where
  | nil (s : σ) : Leads member s [] s
  | cons {s s' s'' : σ} {key : String} {value : Json} {members : List (String × Json)}
    (first : ∀ level rest,
      member key s (':' :: ' ' :: ((prettyAt level value).toList ++ rest)) = .ok (s', rest))
    (others : Leads member s' members s'') : Leads member s ((key, value) :: members) s''

variable {member : String → σ → Reader σ} {s s' s'' : σ}

/-- One round of reading: a separator, a name and a value. -/
theorem readMembers_step {first : Bool} {n level : Nat} {key : String} {value : Json}
    {cs rest : List Char}
    (hcs : separator '}' first cs =
      .ok (some ((quote key).toList ++ ':' :: ' ' :: ((prettyAt level value).toList ++ rest))))
    (h : member key s (':' :: ' ' :: ((prettyAt level value).toList ++ rest)) = .ok (s', rest)) :
    readMembers member (n + 1) first s cs = readMembers member n false s' rest := by
  simp [readMembers, hcs, readKey_quote, h, bind, Except.bind]

theorem separator_first (level : Nat) (key : String) (rest : List Char) :
    separator '}' true ((newline level).toList ++ ((quote key).toList ++ rest)) =
      .ok (some ((quote key).toList ++ rest)) := by
  rw [separator, skipBlanks_newline, toList_quote]
  rfl

theorem separator_next (level : Nat) (key : String) (rest : List Char) :
    separator '}' false (',' :: ((newline level).toList ++ ((quote key).toList ++ rest))) =
      .ok (some ((quote key).toList ++ rest)) := by
  have hblanks : skipBlanks ((newline level).toList ++ ((quote key).toList ++ rest)) =
      (quote key).toList ++ rest := by
    rw [skipBlanks_newline, toList_quote]
    rfl
  change Except.ok (some (skipBlanks _)) = _
  rw [hblanks]

/-- The end of an object is passed over. -/
theorem readMembers_end {first : Bool} {n : Nat} {cs rest : List Char}
    (h : skipBlanks cs = '}' :: rest) : readMembers member (n + 1) first s cs = .ok (s, rest) := by
  simp [readMembers, separator, h, bind, Except.bind, pure, Except.pure]

theorem readMembers_next {members : List (String × Json)} (h : Leads member s members s')
    (inner outer : Nat) (rest : List Char) {n : Nat}
    (hn : ((prettyMembers inner members).toList ++
      ((newline outer).toList ++ '}' :: rest)).length < n) :
    readMembers member n false s
      ((prettyMembers inner members).toList ++ ((newline outer).toList ++ '}' :: rest)) =
        .ok (s', rest) := by
  induction h generalizing n with
  | nil s =>
    have hnone : (prettyMembers inner []).toList = [] := by simp [prettyMembers]
    obtain ⟨n, rfl⟩ : ∃ k, n = k + 1 := ⟨n - 1, by omega⟩
    rw [hnone, List.nil_append]
    refine readMembers_end ?_
    rw [skipBlanks_newline]
    rfl
  | @cons s s₁ s₂ key value members hfirst _ ih =>
    have htext : (prettyMembers inner ((key, value) :: members)).toList ++
        ((newline outer).toList ++ '}' :: rest) =
        ',' :: ((newline inner).toList ++ ((quote key).toList ++ ':' :: ' ' ::
          ((prettyAt inner value).toList ++ ((prettyMembers inner members).toList ++
            ((newline outer).toList ++ '}' :: rest))))) := by
      simp [prettyMembers]
    rw [htext] at hn ⊢
    obtain ⟨n, rfl⟩ : ∃ k, n = k + 1 := ⟨n - 1, by omega⟩
    rw [readMembers_step (separator_next ..) (hfirst inner _)]
    refine ih ?_
    simp only [List.length_cons, List.length_append] at hn ⊢
    omega

/-- The members of an object that is written are read back from what follows its opening brace. -/
theorem readMembers_obj {members : List (String × Json)} (h : Leads member s members s')
    (level : Nat) (rest : List Char) :
    ∃ text, (prettyAt level (.obj members)).toList ++ rest = '{' :: text ∧
      readMembers member (text.length + 1) true s text = .ok (s', rest) := by
  cases h with
  | nil => exact ⟨'}' :: rest, by simp [prettyAt], readMembers_end rfl⟩
  | @cons _ s₁ _ key value members hfirst hothers =>
    refine ⟨(newline (level + 1)).toList ++ ((quote key).toList ++ ':' :: ' ' ::
      ((prettyAt (level + 1) value).toList ++ ((prettyMembers (level + 1) members).toList ++
        ((newline level).toList ++ '}' :: rest)))), by simp [prettyAt], ?_⟩
    rw [readMembers_step (separator_first ..) (hfirst (level + 1) _)]
    refine readMembers_next hothers _ _ _ ?_
    simp only [List.length_cons, List.length_append]
    omega

/-! ## Records and dictionaries -/

/-- The members of a record are read back if each is a field that has not been read before. -/
theorem Leads.field {fields : List (RecordField ρ)} {field : RecordField ρ} {seen : List String}
    {r r' : ρ} {state : List String × ρ} {key : String} {value : Json}
    {members : List (String × Json)} (hfind : fields.find? (·.name == key) = some field)
    (hnew : seen.contains key = false) (hread : Rereads (field.read r) value r')
    (hothers : Leads (readField fields) (key :: seen, r') members state) :
    Leads (readField fields) (seen, r) ((key, value) :: members) state := by
  refine .cons (fun level rest => ?_) hothers
  have hvalue := hread level (' ' :: ((prettyAt level value).toList ++ rest)) rest rfl
  have hcolon : skipColon (':' :: ' ' :: ((prettyAt level value).toList ++ rest)) =
      .ok (' ' :: ((prettyAt level value).toList ++ rest)) := rfl
  have hnew' : key ∉ seen := by simpa using hnew
  simp [readField, hfind, hnew', hcolon, hvalue, bind, Except.bind, pure, Except.pure]

theorem rereads_record {fields : List (RecordField ρ)} {r r' : ρ} {seen : List String}
    {members : List (String × Json)} (h : Leads (readField fields) ([], r) members (seen, r')) :
    Rereads (readRecord fields r) (.obj members) r' := by
  intro level cs rest hcs
  obtain ⟨text, htext, hread⟩ := readMembers_obj h level rest
  rw [htext] at hcs
  have hopen : skipBlanks cs = '{' :: text := hcs
  simp [readRecord, hopen, hread, bind, Except.bind, pure, Except.pure]

/-- The entries of a dictionary are read back one by one. -/
theorem rereads_entries {read : Reader α} {f : α → Json} (h : ∀ a, Rereads read (f a) a)
    (entries : List (String × α)) :
    Rereads (readDictionary read) (.obj (entries.map fun e => (e.1, f e.2)))
      (Dictionary.ofList entries) := by
  intro level cs rest hcs
  let member := fun key (d : Dictionary α) cs => do
    let (v, cs) ← read (← skipColon cs)
    return (d.insert key v, cs)
  have hleads : ∀ (l : List (String × α)) (d : Dictionary α),
      Leads member d (l.map fun e => (e.1, f e.2)) (l.foldl (fun d e => d.insert e.1 e.2) d) := by
    intro l
    induction l with
    | nil => exact .nil
    | cons e l ih =>
      intro d
      refine .cons (fun level rest => ?_) (ih _)
      have hvalue := h e.2 level (' ' :: ((prettyAt level (f e.2)).toList ++ rest)) rest rfl
      have hcolon : skipColon (':' :: ' ' :: ((prettyAt level (f e.2)).toList ++ rest)) =
          .ok (' ' :: ((prettyAt level (f e.2)).toList ++ rest)) := rfl
      simp [member, hcolon, hvalue, bind, Except.bind, pure, Except.pure]
  obtain ⟨text, htext, hread⟩ := readMembers_obj (hleads entries .empty) level rest
  rw [htext] at hcs
  have hopen : skipBlanks cs = '{' :: text := hcs
  rw [readDictionary, hopen]
  exact hread

/-- A document is read back with white space after it. -/
theorem readDocument_pretty {read : Reader α} {json : Json} {a : α} (h : Rereads read json a)
    {blanks : String} (hblanks : ∀ c ∈ blanks.toList, isBlank c = true) :
    readDocument read (json.pretty ++ blanks) = .ok a := by
  have hread := h 0 (json.pretty ++ blanks).toList blanks.toList (by rw [String.toList_append]; rfl)
  have hend : (skipBlanks blanks.toList).isEmpty = true := by
    rw [List.isEmpty_iff, skipBlanks, List.dropWhile_eq_nil_iff]
    exact hblanks
  rw [readDocument, hread]
  simp only [bind, Except.bind, hend, if_true]
  rfl

end MethodBrowser.Json
