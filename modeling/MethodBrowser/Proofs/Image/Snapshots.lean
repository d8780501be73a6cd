import MethodBrowser.Image.Snapshot
import MethodBrowser.Proofs.Dictionary
import MethodBrowser.Proofs.Json.Reread

/-!
# Snapshots

An image is read back from its snapshot, whatever strings it holds (`Image.snapshot_roundTrip`). A
snapshot names each field of a class once and in order, so every field that is read is a new one,
and no default is left. It names classes and methods in increasing order, as a dictionary lists
them, so the dictionaries that are read are those that were written.

White space may follow the snapshot (`Image.ofSnapshot_snapshot_append`), such as the line end of a
file.
-/

namespace MethodBrowser

open Json (Reader Rereads Leads)

theorem Dictionary.rereads {α : Type} {read : Reader α} {f : α → Json}
    (h : ∀ a, Rereads read (f a) a) (d : Dictionary α) :
    Rereads (Json.readDictionary read) (d.toJson f) d := by
  have hentries := Json.rereads_entries h d.entries
  rwa [Dictionary.ofList_entries] at hentries

theorem MethodEntry.rereads (m : MethodEntry) : Rereads Image.readMethod m.toJson m := by
  have hsource : Leads (Json.readField Image.methodFields) ([], ⟨none, none⟩)
      [("source", .str m.source), ("category", .str m.category)]
      (["category", "source"], ⟨some m.source, some m.category⟩) :=
    .field rfl rfl ((Json.rereads_str m.source).put fun s => Image.MethodDraft.mk (some s) none) <|
    .field rfl rfl
      ((Json.rereads_str m.category).put fun s => Image.MethodDraft.mk (some m.source) (some s)) <|
    .nil _
  intro level cs rest hcs
  have hdraft := Json.rereads_record hsource level cs rest hcs
  simp [Image.readMethod, hdraft, bind, Except.bind, pure, Except.pure]

theorem ClassEntry.rereads (c : ClassEntry) :
    Rereads (Json.readRecord Image.classFields .blank) c.toJson c := by
  obtain ⟨superclass, package, definition, readOnly, instanceMethods, classMethods⟩ := c
  exact Json.rereads_record <|
    .field rfl rfl ((Json.rereads_optional superclass).put fun s =>
      mk s "" "" false .empty .empty) <|
    .field rfl rfl ((Json.rereads_str package).put fun s =>
      mk superclass s "" false .empty .empty) <|
    .field rfl rfl ((Json.rereads_str definition).put fun s =>
      mk superclass package s false .empty .empty) <|
    .field rfl rfl ((Json.rereads_bool readOnly).put fun b =>
      mk superclass package definition b .empty .empty) <|
    .field rfl rfl ((instanceMethods.rereads MethodEntry.rereads).put fun d =>
      mk superclass package definition readOnly d .empty) <|
    .field rfl rfl ((classMethods.rereads MethodEntry.rereads).put fun d =>
      mk superclass package definition readOnly instanceMethods d) <|
    .nil _

namespace Image

theorem rereads (image : Image) :
    Rereads (Json.readRecord imageFields .empty) image.toJson image :=
  Json.rereads_record <|
    .field rfl rfl ((image.classes.rereads ClassEntry.rereads).put Image.mk) <| .nil _

/-- A snapshot is read back with white space after it. -/
theorem ofSnapshot_snapshot_append (image : Image) {blanks : String}
    (hblanks : ∀ c ∈ blanks.toList, Json.isBlank c = true) :
    ofSnapshot (image.snapshot ++ blanks) = .ok image :=
  Json.readDocument_pretty image.rereads hblanks

/-- An image is read back from its snapshot. So whatever text an image was read from, the snapshot
of the image is a snapshot of what is read from it. -/
theorem snapshot_roundTrip :
    (∀ image : Image, ofSnapshot image.snapshot = .ok image) ∧
      ∀ text image, ofSnapshot text = .ok image →
        ∃ image', ofSnapshot image.snapshot = .ok image' ∧ image'.snapshot = image.snapshot := by
  have hread : ∀ image : Image, ofSnapshot image.snapshot = .ok image := by
    intro image
    have hblanks : ∀ c ∈ "".toList, Json.isBlank c = true := by simp
    have h := image.ofSnapshot_snapshot_append hblanks
    rwa [String.append_empty] at h
  exact ⟨hread, fun text image _ => ⟨image, hread image, rfl⟩⟩

/-- The last of two classes of one name counts, and what it leaves out is blank. -/
theorem snapshot_roundTrip_duplicate :
    ofSnapshot "\x7b\"classes\":\x7b\"A\":\x7b\"package\":\"p\"\x7d,\"A\":\x7b\x7d\x7d\x7d" =
        .ok ⟨Dictionary.empty.insert "A" .blank⟩ ∧
      ∃ image', ofSnapshot (snapshot ⟨Dictionary.empty.insert "A" .blank⟩) = .ok image' ∧
        image'.snapshot = snapshot ⟨Dictionary.empty.insert "A" .blank⟩ :=
  ⟨by decide +kernel, snapshot_roundTrip.2
    "\x7b\"classes\":\x7b\"A\":\x7b\"package\":\"p\"\x7d,\"A\":\x7b\x7d\x7d\x7d" _
    (by decide +kernel)⟩

end Image

end MethodBrowser
