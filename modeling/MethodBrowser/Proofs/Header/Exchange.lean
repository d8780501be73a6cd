import MethodBrowser.Proofs.Edit.RenameComplete

/-!
# Exchanging the signature of a line

A line is read as a signature, and the signature is rendered with another selector and put in front
of what followed the old one. That may be anything at which the reader stopped: a comment, the body
of a short method, or one more word with a colon. The new line is read as the new signature
(`Header.parse?_renamed`), so what follows is neither taken into it nor cut off from it.

**Why the reader stops there again.** Where it stops depends on the kind of the signature and on
what follows, and on nothing else (`Header.Ends`). A signature of the same kind leaves both as they
are.
-/

namespace MethodBrowser.Header

variable {line : String} {h : Header}

/-- What follows the signature of a line follows any other one that is put in its place. -/
theorem Reading.toList_replaceHeader {sig rest : List Char}
    (hreading : Reading line.toList h sig rest) (new : Header) :
    (replaceHeader line h new).toList = new.render.toList ++ rest := by
  refine Header.toList_replaceHeader hreading.line_eq ?_ new
  rw [hreading.signatureEnd, utf8Len_signature hreading.chars]

/-- Rendered signatures have as many bytes as characters. -/
theorem WellFormed.utf8ByteSize_render (hwf : h.WellFormed) :
    h.render.utf8ByteSize = h.render.toList.length := by
  rw [← String.utf8Len_toList, utf8Len_signature fun c hc => (mem_render hwf hc).1]

/-- The new signature is read from the line, and it ends where its rendering does. -/
theorem parse?_replaceHeader {new : Header} (hp : parse? line = some h) (hwf : new.WellFormed)
    (hkind : new.kind = h.kind) :
    parse? (replaceHeader line h new) =
      some { new with signatureEnd := new.render.utf8ByteSize } := by
  obtain ⟨sig, rest, hreading⟩ := parse?_eq_some hp
  rw [hwf.utf8ByteSize_render]
  refine parse?_render hwf ?_ (hreading.toList_replaceHeader new)
  rw [hkind]
  exact hreading.ends

/-- A header that is read has the kind of its selector and as many arguments as the selector takes.
Its selector can be exchanged for any other one of the same kind and arity, whatever follows the
signature: the new line is read as the new selector with the old arguments, and as no more than was
rendered. -/
theorem parse?_renamed (hp : parse? line = some h) :
    Selector.kind? h.selector = some h.kind ∧
    h.arguments.length = Selector.arity h.selector ∧
    ∀ new, Selector.kind? new = some h.kind → Selector.arity new = Selector.arity h.selector →
      let signature := (ofParts h.kind (Selector.tokens new) h.arguments).render
      parse? (signature ++ String.Pos.Raw.extract line ⟨h.signatureEnd⟩ line.rawEndPos) =
        some ⟨new, h.kind, Selector.tokens new, h.arguments, signature.utf8ByteSize⟩ := by
  obtain ⟨sig, rest, hreading⟩ := parse?_eq_some hp
  refine ⟨hreading.wellFormed.kind, hreading.wellFormed.arity, fun new hkind harity => ?_⟩
  have hwf := hreading.wellFormed.ofParts hkind harity.symm
  have hread := parse?_replaceHeader hp hwf rfl
  rw [show (ofParts h.kind (Selector.tokens new) h.arguments).selector = new from join_tokens new]
    at hread
  exact hread

/-- A word with a colon but without an argument follows the signature, and the line goes on. -/
theorem parse?_renamed_trailing :
    parse? " at: i  put:x foo: \"é\"" = some ⟨"at:put:", .keyword, ["at:", "put:"], ["i", "x"], 13⟩ ∧
    parse? "from: i to: x foo: \"é\"" =
      some ⟨"from:to:", .keyword, ["from:", "to:"], ["i", "x"], 13⟩ := by
  have hp : parse? " at: i  put:x foo: \"é\"" =
      some ⟨"at:put:", .keyword, ["at:", "put:"], ["i", "x"], 13⟩ := by decide +kernel
  refine ⟨hp, ?_⟩
  have hread := (parse?_renamed hp).2.2 "from:to:" (by decide +kernel) (by decide +kernel)
  exact hread

end MethodBrowser.Header
