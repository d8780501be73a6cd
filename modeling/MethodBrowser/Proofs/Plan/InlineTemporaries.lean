import MethodBrowser.Plan.InlineMethod
import MethodBrowser.Proofs.Header.FirstLine
import MethodBrowser.Proofs.Image.Questions
import MethodBrowser.Proofs.Source.PlainCode

/-!
# Callees with temporaries

A method that declares temporaries is no expression, so inlining refuses it. The declaration is looked
for where the body starts, which is after the first line break.

**In the body.** A declaration with nothing but white space and comments in front of it is found
(`Source.temporaries_of_declares`), and planning stops before the caller is read.

**On the header line.** A method may be written on one line. Its statements are then taken from the
header line, but a declaration that stands there is not looked for: it is refused only if the body
declares temporaries as well (`InlineMethod.refuses_temporaries_iff`).
-/

namespace MethodBrowser

namespace Source

variable {src : Source} {i j : Nat}

/-! ## Declarations -/

instance (src : Source) (i j : Nat) : Decidable (src.Idle i j) :=
  decidable_of_iff (∀ k < j, i ≤ k → src.isSignificant k = false)
    ⟨fun h k hik hkj => h k hkj hik, fun h k hkj hik => h k hik hkj⟩

/-- A declaration of temporaries opens at `j`, with at most white space and comments between `i` and
its first bar. -/
structure Declares (src : Source) (i j : Nat) : Prop where
  le : i ≤ j
  idle : src.Idle i j
  opened : src.codeAt j '|' = true
  closed : ∃ k, j < k ∧ src.codeAt k '|' = true

/-- The declaration is the same if it is looked for closer to it. -/
theorem Declares.mono {i' : Nat} (h : src.Declares i j) (hi : i ≤ i') (hj : i' ≤ j) :
    src.Declares i' j :=
  ⟨hj, h.idle.mono hi (Nat.le_refl _), h.opened, h.closed⟩

/-- The bar is no pragma, so the declaration is what comes first. -/
theorem Declares.pragmasFrom (h : src.Declares i j) : src.pragmasFrom i = ([], j) := by
  have hskip := h.idle.skipTrivia h.le (by decide) h.opened
  have hnone : src.pragmaAt? (src.skipTrivia i) = none := by
    have hother : src.codeAt j '<' = false := codeAt_ne (by decide) h.opened
    rw [hskip, pragmaAt?, hother]
    rfl
  rw [pragmasFrom_of_none hnone, hskip]

theorem Declares.temporariesAt? (h : src.Declares i j) : (src.temporariesAt? j).isSome = true := by
  obtain ⟨k, hjk, hk⟩ := h.closed
  rw [Source.temporariesAt?, if_pos h.opened, Option.isSome_map]
  by_contra hnone
  have hfind := Option.not_isSome_iff_eq_none.1 hnone
  rw [codeAt, not_holds_of_find?_eq_none hfind hjk (lt_size_of_holds hk)] at hk
  simp at hk

/-- A declaration of temporaries behind white space and comments belongs to the preamble. -/
theorem temporaries_of_declares (h : src.Declares i j) :
    (src.preamble i).temporaries = src.temporariesAt? j := by
  obtain ⟨block, hblock⟩ := Option.isSome_iff_exists.1 h.temporariesAt?
  simp only [preamble, h.pragmasFrom, hblock]

end Source

/-- A signature stands on the first line. -/
theorem Header.signatureEnd_le_bodyStart {text : String} {header : Header}
    (h : Header.ofText? text = some header) : header.signatureEnd ≤ (Source.ofText text).bodyStart := by
  obtain ⟨sig, after, hread⟩ := Header.ofText?_eq_some h
  have hnewline := Header.newline_not_mem hread.chars
  rw [hread.signatureEnd]
  rcases oneLine_or_newline text.toList with hone | ⟨line, body, htext, hline⟩
  · rw [Source.bodyStart_of_oneLine hone, Source.size_eq, Source.ofText, hread.text_eq,
      String.utf8Len_append]
    omega
  · rw [Source.bodyStart_of_newline htext hline]
    rcases List.append_eq_append_iff.1 (htext.symm.trans hread.text_eq) with
      ⟨more, rfl, hmore⟩ | ⟨more, rfl, -⟩
    · cases more with
      | nil => simp
      | cons c more =>
        obtain ⟨rfl, -⟩ := List.cons_eq_cons.1 hmore
        simp at hnewline
    · rw [String.utf8Len_append]
      omega

namespace InlineMethod

variable {callee : MethodRef} {text : String}

/-! ## Refusals -/

/-- Temporaries of the body are the one reason for this refusal. -/
theorem inlineExpression_eq_temporaries_iff :
    inlineExpression callee text = .error (.calleeHasTemporaries callee) ↔
      ((Source.ofText text).preamble (Source.ofText text).bodyStart).temporaries.isSome = true := by
  simp only [inlineExpression]
  split
  · next h => simp [h]
  · next h =>
    refine iff_of_false ?_ h
    split
    · split <;> simp
    · simp

/-- Nothing is planned if the expression of the callee is refused. -/
theorem plan_of_refused {session : Session} {settings : Settings} {r : Request} {e : Precondition}
    (hunary : Selector.kind? r.calleeSelector = some .unary)
    (hne : r.callerSelector ≠ r.calleeSelector)
    (hsource : session.sourceOf ⟨r.className, r.side, r.calleeSelector⟩ = .ok text)
    (h : inlineExpression ⟨r.className, r.side, r.calleeSelector⟩ text = .error e) :
    plan session settings r = .error (.precondition e) := by
  simp [plan, hunary, hne, hsource, h, require, bind, Except.bind, Except.mapError]

/-- A class with a method that has a temporary and a method that sends it. -/
def answeringCounter : Image :=
  ((Image.empty.defineClass "Counter" (some "Object") "Kernel").perform
    [.compile "Counter" .instanceSide "answer\n\"none\" | t | ^t" "accessing",
      .compile "Counter" .instanceSide "run\n^self answer" "running"]).1

/-- A declaration of temporaries that follows the signature, or that opens the body, is refused if it
stands behind the first line break. One on the header line is not, unless the body declares
temporaries, too. -/
theorem refuses_temporaries_iff (callee : MethodRef) (text : String) (header : Header) (i j : Nat)
    (hparse : Header.ofText? text = some header)
    (hi : i = header.signatureEnd ∨ i = (Source.ofText text).bodyStart)
    (hdeclares : (Source.ofText text).Declares i j) :
    let src := Source.ofText text
    (inlineExpression callee text = .error (.calleeHasTemporaries callee) ↔
        src.bodyStart ≤ j ∨ (src.preamble src.bodyStart).temporaries.isSome = true) ∧
      ∀ (session : Session) (settings : Settings) (r : Request),
        src.bodyStart ≤ j →
        Selector.kind? r.calleeSelector = some .unary → r.callerSelector ≠ r.calleeSelector →
        callee = ⟨r.className, r.side, r.calleeSelector⟩ → session.sourceOf callee = .ok text →
        plan session settings r = .error (.precondition (.calleeHasTemporaries callee)) := by
  intro src
  have hbody : src.bodyStart ≤ j → (src.preamble src.bodyStart).temporaries.isSome = true := by
    intro hj
    have hle : i ≤ src.bodyStart :=
      hi.elim (fun h => h ▸ Header.signatureEnd_le_bodyStart hparse) Nat.le_of_eq
    have h := hdeclares.mono hle hj
    rw [Source.temporaries_of_declares h]
    exact h.temporariesAt?
  refine ⟨?_, fun session settings r hj hkind hne hcallee hsource => ?_⟩
  · rw [inlineExpression_eq_temporaries_iff]
    exact ⟨.inr, fun h => h.elim hbody id⟩
  · subst hcallee
    exact plan_of_refused hkind hne hsource (inlineExpression_eq_temporaries_iff.2 (hbody hj))

theorem refuses_temporaries_answer :
    inlineExpression ⟨"Counter", .instanceSide, "answer"⟩ "answer\n\"none\" | t | ^t" =
        .error (.calleeHasTemporaries ⟨"Counter", .instanceSide, "answer"⟩) ∧
      plan ⟨answeringCounter, []⟩ .standard ⟨"Counter", .instanceSide, "run", "answer"⟩ =
        .error (.precondition (.calleeHasTemporaries ⟨"Counter", .instanceSide, "answer"⟩)) := by
  have hparse : Header.ofText? "answer\n\"none\" | t | ^t" =
      some ⟨"answer", .unary, ["answer"], [], 6⟩ := by decide +kernel
  have hdeclares : (Source.ofText "answer\n\"none\" | t | ^t").Declares 6 14 :=
    ⟨by decide, by decide +kernel, by decide +kernel, 18, by decide, by decide +kernel⟩
  have hbody : (Source.ofText "answer\n\"none\" | t | ^t").bodyStart ≤ 14 := by decide +kernel
  obtain ⟨hrefused, hplan⟩ := refuses_temporaries_iff ⟨"Counter", .instanceSide, "answer"⟩ _ _ 6 14
    hparse (.inl rfl) hdeclares
  exact ⟨hrefused.2 (.inl hbody), hplan _ _ ⟨"Counter", .instanceSide, "run", "answer"⟩ hbody
    (by decide +kernel) (by decide) rfl (by decide +kernel)⟩

/-- Temporaries on the header line are inlined with the bars around them, or without their
declaration if the statement is in the body. -/
theorem header_line_temporaries_inlined :
    (Header.ofText? "answer | t | ^t" = some ⟨"answer", .unary, ["answer"], [], 6⟩ ∧
      (Source.ofText "answer | t | ^t").Declares 6 7 ∧
      inlineExpression ⟨"Counter", .instanceSide, "answer"⟩ "answer | t | ^t" = .ok "| t | ^t") ∧
    Header.ofText? "answer | t |\n^t" = some ⟨"answer", .unary, ["answer"], [], 6⟩ ∧
      (Source.ofText "answer | t |\n^t").Declares 6 7 ∧
      inlineExpression ⟨"Counter", .instanceSide, "answer"⟩ "answer | t |\n^t" = .ok "t" := by
  refine ⟨⟨by decide +kernel, ⟨by decide, ?_, ?_, 11, by decide, ?_⟩, ?_⟩, by decide +kernel,
    ⟨by decide, ?_, ?_, 11, by decide, ?_⟩, ?_⟩ <;> decide +kernel

end InlineMethod

end MethodBrowser
