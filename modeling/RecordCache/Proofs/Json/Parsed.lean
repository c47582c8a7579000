import RecordCache.Proofs.Binary64.Scaled
import RecordCache.Json.Reader

/-!
# Numbers of documents

A literal that is too large denotes nothing, so that the floating-point numbers of a document that
was read from a text are finite.

* `Document.Finite` says so of a document, at every depth;
* `Document.readsFinite`: the three readers, with any fuel;
* `Document.finite_of_parse?`: whatever the text.
-/

namespace RecordCache.Json

theorem Numeral.isFinite_of_number? {numeral : Numeral} {x : Binary64}
    (h : numeral.number? = some (.float x)) : x.isFinite = true := by
  rw [number?] at h
  cases hinteger : numeral.integer? with
  | some n => rw [hinteger] at h; cases h
  | none =>
    rw [hinteger] at h
    obtain ⟨y, hy, hxy⟩ := Option.map_eq_some_iff.1 h
    cases hxy
    obtain ⟨z, hz, rfl⟩ := Option.map_eq_some_iff.1 hy
    rw [Binary64.isFinite_signed]
    exact Binary64.isFinite_ofScaled? hz

namespace Document

/-- Every floating-point number in the document is finite. -/
inductive Finite : Document → Prop
  | null : Finite null
  | bool (b : Bool) : Finite (bool b)
  | number {n : Option Number} : (∀ x, n = some (.float x) → x.isFinite = true) → Finite (number n)
  | string (s : Option String) : Finite (string s)
  | array {items : List Document} : (∀ item ∈ items, Finite item) → Finite (array items)
  | object {members : List (Option String × Document)} :
    (∀ member ∈ members, Finite member.2) → Finite (object members)

/-- With some fuel, the values, items and members that are read are finite. -/
structure ReadsFinite (fuel : Nat) : Prop where
  value : ∀ {text document rest}, value fuel text = some (document, rest) → document.Finite
  items : ∀ {text documents rest}, items fuel text = some (documents, rest) →
    ∀ document ∈ documents, document.Finite
  members : ∀ {text documents rest}, members fuel text = some (documents, rest) →
    ∀ member ∈ documents, member.2.Finite

namespace ReadsFinite

variable {fuel : Nat} {text rest : List Char}

theorem value_succ (h : ReadsFinite fuel) {document : Document}
    (hread : Document.value (fuel + 1) text = some (document, rest)) : document.Finite := by
  rw [Document.value] at hread
  split at hread
  · cases hread; exact .null
  · cases hread; exact .bool true
  · cases hread; exact .bool false
  · obtain ⟨read, -, heq⟩ := Option.map_eq_some_iff.1 hread
    cases heq
    exact .string _
  · split at hread
    · cases hread; exact .array (List.forall_mem_nil _)
    · obtain ⟨read, hitems, heq⟩ := Option.map_eq_some_iff.1 hread
      cases heq
      exact .array (h.items hitems)
  · split at hread
    · cases hread; exact .object (List.forall_mem_nil _)
    · obtain ⟨read, hmembers, heq⟩ := Option.map_eq_some_iff.1 hread
      cases heq
      exact .object (h.members hmembers)
  · obtain ⟨read, -, heq⟩ := Option.map_eq_some_iff.1 hread
    cases heq
    exact .number fun x hx => Numeral.isFinite_of_number? hx

theorem items_succ (h : ReadsFinite fuel) {documents : List Document}
    (hread : Document.items (fuel + 1) text = some (documents, rest)) :
    ∀ document ∈ documents, document.Finite := by
  rw [Document.items] at hread
  obtain ⟨⟨item, behind⟩, hitem, hread⟩ := Option.bind_eq_some_iff.1 hread
  have hfirst := h.value hitem
  dsimp only at hread
  split at hread
  · cases hread
    exact List.forall_mem_singleton.2 hfirst
  · obtain ⟨read, hitems, heq⟩ := Option.map_eq_some_iff.1 hread
    cases heq
    exact List.forall_mem_cons.2 ⟨hfirst, h.items hitems⟩
  · cases hread

theorem members_succ (h : ReadsFinite fuel) {documents : List (Option String × Document)}
    (hread : Document.members (fuel + 1) text = some (documents, rest)) :
    ∀ member ∈ documents, member.2.Finite := by
  rw [Document.members] at hread
  split at hread
  · obtain ⟨⟨name, behind⟩, -, hread⟩ := Option.bind_eq_some_iff.1 hread
    dsimp only at hread
    split at hread
    · obtain ⟨⟨content, behind⟩, hcontent, hread⟩ := Option.bind_eq_some_iff.1 hread
      have hfirst := h.value hcontent
      dsimp only at hread
      split at hread
      · cases hread
        exact List.forall_mem_singleton.2 hfirst
      · obtain ⟨read, hmembers, heq⟩ := Option.map_eq_some_iff.1 hread
        cases heq
        exact List.forall_mem_cons.2 ⟨hfirst, h.members hmembers⟩
      · cases hread
    · cases hread
  · cases hread

end ReadsFinite

/-- By induction on the fuel, for all three at once. -/
theorem readsFinite (fuel : Nat) : ReadsFinite fuel := by
  induction fuel with
  | zero =>
    -- without fuel nothing is read
    refine ⟨fun h => ?_, fun h => ?_, fun h => ?_⟩
    · rw [value] at h; cases h
    · rw [items] at h; cases h
    · rw [members] at h; cases h
  | succ fuel ih => exact ⟨ih.value_succ, ih.items_succ, ih.members_succ⟩

theorem finite_of_parse? {text : String} {document : Document}
    (h : parse? text = some document) : document.Finite := by
  rw [parse?] at h
  split at h
  · rename_i found rest hread
    split at h
    · cases h
      exact (readsFinite _).value hread
    · cases h
  · cases h

end Document
end RecordCache.Json
