import RecordCache.Proofs.Json.Reader

/-!
# Canonical values

Two values are the same if they differ only in the order in which their objects list the members.
The canonical form, in which members are in order of name, is one for all values that are the same,
and its text is not that of any other value, as long as there are no floating-point numbers and no
two members of one object have one name.

* `Json.Same`, with `SameItems` and `SameMembers`: equality up to the order of members;
* `Json.IsPlain` says that a value has no floating-point number and no two members of one name;
* `Json.canonical_eq_iff`: two plain values are the same exactly if their canonical forms are equal,
  and `sameItems_iff`, `sameMembers_iff` and `canonical_array_eq_iff`, `canonical_object_eq_iff` say
  so of lists and of members;
* `Json.IsExact.document_injective`, `Json.textMembers_injective`: texts of exact values tell them
  apart, since they are read back.
-/

namespace RecordCache.Json

mutual

/-- The values are the same but for the order in which objects list their members. -/
inductive Same : Json → Json → Prop
  | null : Same null null
  | bool (b : Bool) : Same (bool b) (bool b)
  | number (n : Number) : Same (number n) (number n)
  | string (s : String) : Same (string s) (string s)
  | array {xs ys : List Json} : SameItems xs ys → Same (array xs) (array ys)
  | object {ms ns : List (String × Json)} : SameMembers ms ns → Same (object ms) (object ns)

/-- The items are the same, one after the other. -/
inductive SameItems : List Json → List Json → Prop
  | nil : SameItems [] []
  | cons {x y : Json} {xs ys : List Json} :
    Same x y → SameItems xs ys → SameItems (x :: xs) (y :: ys)

/-- The members are the same in some order: each has a partner of its name and the same value. -/
inductive SameMembers : List (String × Json) → List (String × Json) → Prop
  | nil : SameMembers [] []
  | cons {name : String} {x y : Json} {ms before after : List (String × Json)} :
    Same x y → SameMembers ms (before ++ after) →
      SameMembers ((name, x) :: ms) (before ++ (name, y) :: after)

end

/-- The value holds no floating-point number, and no two members of an object have one name. -/
inductive IsPlain : Json → Prop
  | null : IsPlain null
  | bool (b : Bool) : IsPlain (bool b)
  | integer (n : Integer) : IsPlain (number (.integer n))
  | string (s : String) : IsPlain (string s)
  | array {items : List Json} : (∀ item ∈ items, IsPlain item) → IsPlain (array items)
  | object {members : List (String × Json)} : (members.map Prod.fst).Nodup →
    (∀ member ∈ members, IsPlain member.2) → IsPlain (object members)

/-- The member with its value in canonical form. -/
def canonicalMember (member : String × Json) : String × Json := (member.1, member.2.canonical)

theorem canonicalItems_eq (items : List Json) : canonicalItems items = items.map canonical := by
  induction items with
  | nil => rfl
  | cons item items ih => rw [canonicalItems, ih, List.map_cons]

theorem canonicalMembers_eq (members : List (String × Json)) :
    canonicalMembers members = members.map canonicalMember := by
  induction members with
  | nil => rfl
  | cons member members ih =>
    rw [canonicalMembers, ih, List.map_cons]
    rfl

theorem names_canonicalMember (members : List (String × Json)) :
    (members.map canonicalMember).map Prod.fst = members.map Prod.fst := by
  rw [List.map_map]
  rfl

/-! ### Equal canonical forms -/

/-- By induction on the first items. -/
theorem sameItems_iff {xs ys : List Json}
    (h : ∀ x ∈ xs, ∀ y ∈ ys, x.canonical = y.canonical ↔ Same x y) :
    xs.map canonical = ys.map canonical ↔ SameItems xs ys := by
  induction xs generalizing ys with
  | nil =>
    cases ys with
    | nil => exact iff_of_true rfl .nil
    | cons y ys => exact iff_of_false nofun nofun
  | cons x xs ih =>
    cases ys with
    | nil => exact iff_of_false nofun nofun
    | cons y ys =>
      have hfirst := h x List.mem_cons_self y List.mem_cons_self
      have hrest := ih fun x hx y hy =>
        h x (List.mem_cons_of_mem _ hx) y (List.mem_cons_of_mem _ hy)
      rw [List.map_cons, List.map_cons, List.cons.injEq, hfirst, hrest]
      constructor
      · rintro ⟨hx, hxs⟩
        exact .cons hx hxs
      · rintro (_ | ⟨hx, hxs⟩)
        exact ⟨hx, hxs⟩

/-- By induction on the first members: a member finds its partner wherever it is listed. -/
theorem sameMembers_iff {ms ns : List (String × Json)}
    (h : ∀ m ∈ ms, ∀ n ∈ ns, m.2.canonical = n.2.canonical ↔ Same m.2 n.2) :
    (ms.map canonicalMember).Perm (ns.map canonicalMember) ↔ SameMembers ms ns := by
  induction ms generalizing ns with
  | nil =>
    rw [List.map_nil, List.nil_perm, List.map_eq_nil_iff]
    constructor
    · rintro rfl
      exact .nil
    · rintro (_ | _)
      rfl
  | cons m ms ih =>
    obtain ⟨name, x⟩ := m
    have hrest {before after : List (String × Json)} {y : Json}
        (hns : ns = before ++ (name, y) :: after) :
        (ms.map canonicalMember).Perm ((before ++ after).map canonicalMember) ↔
          SameMembers ms (before ++ after) := by
      refine ih fun m hm n hn => h m (List.mem_cons_of_mem _ hm) n ?_
      rw [hns]
      exact ((List.sublist_cons_self _ after).append_left before).subset hn
    constructor
    · intro hperm
      -- The partner may be anywhere among the other members; both are taken out.
      have hmem : (name, x.canonical) ∈ ns.map canonicalMember := hperm.subset List.mem_cons_self
      obtain ⟨⟨_, y⟩, hn, heq⟩ := List.mem_map.1 hmem
      obtain ⟨rfl, hcanonical⟩ := Prod.mk.inj heq
      have hsame := (h _ List.mem_cons_self _ hn).1 hcanonical.symm
      obtain ⟨before, after, rfl⟩ := List.append_of_mem hn
      refine .cons hsame ((hrest rfl).1 ?_)
      rw [List.map_append, List.map_cons, List.map_cons, heq] at hperm
      rw [List.map_append]
      exact (hperm.trans List.perm_middle).cons_inv
    · rintro (_ | ⟨hsame, hmembers⟩)
      rename_i y before after
      have hcanonical : x.canonical = y.canonical :=
        (h (name, x) List.mem_cons_self (name, y) (by simp)).2 hsame
      have hperm := (hrest rfl).2 hmembers
      rw [List.map_append] at hperm ⊢
      rw [List.map_cons, List.map_cons, canonicalMember, canonicalMember, hcanonical]
      exact (hperm.cons _).trans List.perm_middle.symm

/-- Two lists whose items have one canonical form exactly if they are the same. -/
theorem canonical_array_eq_iff {xs ys : List Json}
    (h : ∀ x ∈ xs, ∀ y ∈ ys, x.canonical = y.canonical ↔ Same x y) :
    (array xs).canonical = (array ys).canonical ↔ Same (array xs) (array ys) := by
  rw [canonical, canonical, canonicalItems_eq, canonicalItems_eq, array.injEq, sameItems_iff h]
  constructor
  · exact .array
  · rintro (_ | _ | _ | _ | hsame)
    exact hsame

/-- Two objects of such members. A list that is put in order is determined up to its order, since
the names are distinct. -/
theorem canonical_object_eq_iff {ms ns : List (String × Json)} (hms : (ms.map Prod.fst).Nodup)
    (hns : (ns.map Prod.fst).Nodup)
    (h : ∀ m ∈ ms, ∀ n ∈ ns, m.2.canonical = n.2.canonical ↔ Same m.2 n.2) :
    (object ms).canonical = (object ns).canonical ↔ Same (object ms) (object ns) := by
  rw [canonical, canonical, canonicalMembers_eq, canonicalMembers_eq, object.injEq,
    Entries.ofList_eq_iff_perm (by rwa [names_canonicalMember]) (by rwa [names_canonicalMember]),
    sameMembers_iff h]
  constructor
  · exact .object
  · rintro (_ | _ | _ | _ | _ | hsame)
    exact hsame

/-- **Canonical forms.** Plain values are the same exactly if they have one canonical form. By
induction on the first one; in an object the names tell the members apart, so that the order in
which they are put is that of the names alone. -/
theorem canonical_eq_iff {j k : Json} (hj : j.IsPlain) (hk : k.IsPlain) :
    j.canonical = k.canonical ↔ Same j k := by
  induction j using Json.induction generalizing k with
  | null =>
    cases k with
    | null => exact iff_of_true rfl .null
    | _ => exact iff_of_false nofun nofun
  | bool b =>
    cases k with
    | bool c =>
      constructor
      · rintro ⟨⟩
        exact .bool b
      · rintro ⟨⟩
        rfl
    | _ => exact iff_of_false nofun nofun
  | number n =>
    cases k with
    | number m =>
      constructor
      · rintro ⟨⟩
        exact .number n
      · rintro ⟨⟩
        rfl
    | _ => exact iff_of_false nofun nofun
  | string s =>
    cases k with
    | string t =>
      constructor
      · rintro ⟨⟩
        exact .string s
      · rintro ⟨⟩
        rfl
    | _ => exact iff_of_false nofun nofun
  | array xs ih =>
    cases hj with
    | array hxs =>
      cases hk with
      | array hys => exact canonical_array_eq_iff fun x hx y hy => ih x hx (hxs x hx) (hys y hy)
      | _ => exact iff_of_false nofun nofun
  | object ms ih =>
    cases hj with
    | object hnames hms =>
      cases hk with
      | object hnames' hns =>
        exact canonical_object_eq_iff hnames hnames' fun m hm n hn =>
          ih m hm (hms m hm) (hns n hn)
      | _ => exact iff_of_false nofun nofun

/-- The canonical form of a plain value is exact: its members are in order. -/
theorem IsPlain.isExact_canonical {j : Json} (h : j.IsPlain) : j.canonical.IsExact := by
  induction h with
  | null => exact .null
  | bool b => exact .bool b
  | integer n => exact .integer n
  | string s => exact .string s
  | array _ ih =>
    rw [canonical, canonicalItems_eq]
    exact .array (List.forall_mem_map.2 ih)
  | object _ _ ih =>
    rw [canonical, canonicalMembers_eq]
    exact .object (Entries.ascending_ofList _)
      (Entries.forall_mem_ofList (List.forall_mem_map.2 ih))

/-! ### Texts that tell values apart -/

/-- Exact values are read back, so that their documents tell them apart. -/
theorem IsExact.document_injective {j k : Json} (hj : j.IsExact) (hk : k.IsExact)
    (h : j.document = k.document) : j = k := by
  have hread := ofDocument?_document j (max j.nesting k.nesting)
  rw [if_pos (Nat.le_max_left _ _), hj.reread_eq, h, ofDocument?_document,
    if_pos (Nat.le_max_right _ _), hk.reread_eq] at hread
  exact (Option.some.inj hread).symm

theorem documents_injective {ms ns : List (String × Json)} (hms : ∀ m ∈ ms, m.2.IsExact)
    (hns : ∀ n ∈ ns, n.2.IsExact) (h : documentMembers ms = documentMembers ns) : ms = ns := by
  induction ms generalizing ns with
  | nil =>
    cases ns with
    | nil => rfl
    | cons n ns => cases h
  | cons m ms ih =>
    cases ns with
    | nil => cases h
    | cons n ns =>
      obtain ⟨hm, hms⟩ := List.forall_mem_cons.1 hms
      obtain ⟨hn, hns⟩ := List.forall_mem_cons.1 hns
      simp only [documentMembers, List.cons.injEq, Prod.mk.injEq, Option.some.injEq] at h
      obtain ⟨⟨hname, hvalue⟩, hrest⟩ := h
      rw [ih hms hns hrest, Prod.ext hname (hm.document_injective hn hvalue)]

theorem textMembers_ne_nil (m : String × Json) (ms : List (String × Json)) :
    textMembers (m :: ms) ≠ [] := by
  cases ms <;> exact List.cons_ne_nil _ _

/-- **Texts of members.** The text of exact members tells which they are, and in which order. -/
theorem textMembers_injective {ms ns : List (String × Json)} (hms : ∀ m ∈ ms, m.2.IsExact)
    (hns : ∀ n ∈ ns, n.2.IsExact) (h : textMembers ms = textMembers ns) : ms = ns := by
  cases ms with
  | nil =>
    cases ns with
    | nil => rfl
    | cons n ns => exact absurd h.symm (textMembers_ne_nil n ns)
  | cons m ms =>
    cases ns with
    | nil => exact absurd h (textMembers_ne_nil m ms)
    | cons n ns =>
      have hread := Document.members_text (m :: ms) (List.cons_ne_nil _ _) _ (Nat.le_refl _) []
      rw [h, Document.members_text (n :: ns) (List.cons_ne_nil _ _) _ (Nat.le_refl _)] at hread
      exact documents_injective hms hns (congrArg Prod.fst (Option.some.inj hread)).symm

end RecordCache.Json
