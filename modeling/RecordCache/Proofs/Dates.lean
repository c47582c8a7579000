import RecordCache.Chain
import RecordCache.Proofs.Record.Dates

/-!
# Values and the responses that gave them

Responses for one key are merged one after the other. A value stays until another takes its place,
but its dates are those of the last response that had the field, also if that was an error which the
value outlived. So the dates of a value are its own as long as no later response touched the field.

* `Response`, with `Response.command`: what is merged, with which headers and when;
* `Response.Latest`: the last of a run of responses that has a property;
* `Record.MadeFrom` says which response gave each value of a record, and whose dates it has;
* `Record.MadeFrom.merge`: one response more, and `Record.MadeFrom.reread`: a row between two.
-/

namespace RecordCache

/-- A record that arrives with headers, and the moment at which it is merged. -/
structure Response where
  now : Instant
  record : Record
  headers : Headers

namespace Response

variable {key : Key} {field : String} {value : Value} {P : Response → Prop}
  {responses : List Response} {response next : Response}

/-- The plain merge of the record. -/
def command (response : Response) : Instant × Command :=
  (response.now, .merge [response.record] response.headers .overwrite)

/-- The record as a tier that tracks dates takes it. -/
def stamped (response : Response) : Record := response.record.stamped true response.headers

/-- The response is for the key, gives both dates, and lets no error take the place of a value. It
brings no floating-point numbers. -/
structure IsPlain (key : Key) (response : Response) : Prop where
  key : response.record.key = key
  dates : response.headers.GiveDates
  errors : response.headers.has Headers.errorsReplaceCachedValues = false
  fields : response.record.fields.All (Value.HasShape .exact)

/-- The response has this value in a field. -/
def Supplies (field : String) (value : Value) (response : Response) : Prop :=
  response.record.fields.find? field = some value

/-- The response has the field, or brings metadata with a date for it. -/
def Touches (field : String) (response : Response) : Prop :=
  response.record.fields.contains field = true ∨ ¬response.record.Undated field

theorem Supplies.contains (h : response.Supplies field value) :
    response.record.fields.contains field = true :=
  SortedMap.contains_iff.2 ⟨value, h⟩

theorem Supplies.touches (h : response.Supplies field value) : response.Touches field :=
  .inl h.contains

/-- The response is the last one that has the property. -/
def Latest (P : Response → Prop) (responses : List Response) (response : Response) : Prop :=
  ∃ before after, responses = before ++ response :: after ∧ P response ∧ ∀ later ∈ after, ¬P later

theorem Latest.holds (h : Latest P responses response) : P response := by
  obtain ⟨_, _, _, hresponse, _⟩ := h
  exact hresponse

theorem Latest.mem (h : Latest P responses response) : response ∈ responses := by
  obtain ⟨_, _, rfl, _⟩ := h
  exact List.mem_append_right _ List.mem_cons_self

theorem latest_last (h : P next) : Latest P (responses ++ [next]) next :=
  ⟨responses, [], rfl, h, List.forall_mem_nil _⟩

theorem Latest.extend (h : Latest P responses response) (hnext : ¬P next) :
    Latest P (responses ++ [next]) response := by
  obtain ⟨before, after, rfl, hresponse, hafter⟩ := h
  refine ⟨before, after ++ [next], by simp, hresponse, ?_⟩
  exact List.forall_mem_append.2 ⟨hafter, List.forall_mem_singleton.2 hnext⟩

theorem Latest.unique {other : Response} (h : Latest P responses response)
    (h' : Latest P responses other) : response = other := by
  have hfirst {x y : Response} {gap after after' : List Response}
      (heq : x :: after = gap ++ y :: after') (hy : P y) (hafter : ∀ later ∈ after, ¬P later) :
      x = y := by
    cases gap with
    | nil => exact (List.cons.inj heq).1
    | cons z gap =>
      refine absurd hy (hafter y ?_)
      rw [(List.cons.inj heq).2]
      exact List.mem_append_right gap List.mem_cons_self
  obtain ⟨before, after, rfl, hresponse, hafter⟩ := h
  obtain ⟨before', after', heq, hother, hafter'⟩ := h'
  rcases List.append_eq_append_iff.1 heq with ⟨gap, -, hgap⟩ | ⟨gap, -, hgap⟩
  · exact hfirst hgap hother hafter
  · exact (hfirst hgap hresponse hafter').symm

end Response

/-- Where errors do not replace values, an exact value does not take the place of one that it
equals, nor as an error that of a value that is none. -/
theorem Merger.replaces_eq_false {old value : Value} (hvalue : value.HasShape .exact) :
    replaces false (some old) value = false ↔
      value = old ∨ value.isError = true ∧ old.isError = false := by
  have hequals : old.equals value = true ↔ value = old := by
    rw [Value.equals_comm, hvalue.equals_iff]
  rw [replaces, Bool.and_eq_false_iff, Bool.not_eq_false', hequals]
  simp

namespace Record

open Response

variable {key : Key} {field : String} {value : Value} {responses : List Response}
  {next : Response} {r existing : Record}

/-- One response had the value and no later one had it; another is the last that touched the field,
and if it had a value there, that is the one stored or an error which the value outlived, and the
dates are of this response. -/
structure ValueFrom (responses : List Response) (r : Record) (field : String) (value : Value)
    (own last : Response) : Prop where
  supplied : Latest (Supplies field value) responses own
  touched : Latest (Touches field) responses last
  outlived : ∀ other, last.Supplies field other →
    other = value ∨ other.isError = true ∧ value.isError = false
  dated : last.record.fields.contains field = true → r.Carries field last.headers

/-- The record is what responses for its key have made of it. -/
structure MadeFrom (key : Key) (responses : List Response) (r : Record) : Prop where
  key : r.key = key
  fields : r.fields.All (Value.HasShape .exact)
  values : ∀ field value, r.fields.find? field = some value →
    ∃ own last, r.ValueFrom responses field value own last

/-- A response that has the value is the last to do so, and to touch the field. -/
theorem valueFrom_last (hvalue : next.Supplies field value)
    (hdated : r.Carries field next.headers) :
    r.ValueFrom (responses ++ [next]) field value next next where
  supplied := latest_last hvalue
  touched := latest_last hvalue.touches
  outlived _ hother := .inl (Option.some.inj (hother.symm.trans hvalue))
  dated _ := hdated

/-- A response that does not touch the field changes nothing. -/
theorem ValueFrom.passed {r' : Record} {own last : Response}
    (h : r.ValueFrom responses field value own last) (hnext : ¬next.Touches field)
    (hdates : r.Carries field last.headers → r'.Carries field last.headers) :
    r'.ValueFrom (responses ++ [next]) field value own last where
  supplied := h.supplied.extend fun hvalue => hnext hvalue.touches
  touched := h.touched.extend hnext
  outlived := h.outlived
  dated hlast := hdates (h.dated hlast)

/-- The value outlives a response that touches the field, and gives it an error if anything. -/
theorem ValueFrom.outlives {r' : Record} {own last : Response}
    (h : r.ValueFrom responses field value own last) (hnext : next.Touches field)
    (hother : ∀ other, next.Supplies field other → other.isError = true ∧ value.isError = false)
    (hdates : next.record.fields.contains field = true → r'.Carries field next.headers) :
    r'.ValueFrom (responses ++ [next]) field value own next where
  supplied := h.supplied.extend fun hvalue => by
    obtain ⟨herror, hnoError⟩ := hother value hvalue
    rw [herror] at hnoError
    cases hnoError
  touched := latest_last hnext
  outlived other h := .inr (hother other h)
  dated := hdates

/-- The first response. -/
theorem madeFrom_stamped (hnext : next.IsPlain key) : next.stamped.MadeFrom key [next] where
  key := (key_stamped _ _ _).trans hnext.key
  fields := by
    rw [Response.stamped, fields_stamped]
    exact hnext.fields
  values field value hvalue := by
    rw [Response.stamped, fields_stamped] at hvalue
    have hcarries : next.stamped.Carries field next.headers :=
      carries_stamped hnext.dates (Supplies.contains hvalue)
    have hfrom : next.stamped.ValueFrom ([] ++ [next]) field value next next :=
      valueFrom_last hvalue hcarries
    exact ⟨next, next, hfrom⟩

/-- One response more. Its values and its dates are laid over those of the record by rules of their
own: a field that it has takes its dates, whether it takes its value or not. -/
theorem MadeFrom.merge (h : existing.MadeFrom key responses) (hnext : next.IsPlain key) :
    (Merger.overwrite.merge existing next.stamped next.headers).record.MadeFrom key
      (responses ++ [next]) := by
  have hstamped : next.stamped.fields = next.record.fields := fields_stamped _ _ _
  refine ⟨h.key, ?_, fun field value hvalue => ?_⟩
  · exact h.fields.overlay (SortedMap.All.filter (hstamped ▸ hnext.fields))
  rw [Merger.find?_fields_overwrite, hstamped, hnext.errors] at hvalue
  cases hfound : next.record.fields.find? field with
  | none =>
    -- the value stays, and its dates with it unless the response brings others without a value
    rw [hfound] at hvalue
    obtain ⟨own, last, hfrom⟩ := h.values field value hvalue
    have hnot (other : Value) : ¬next.Supplies field other := by
      rw [Supplies, hfound]
      exact (Option.some_ne_none other).symm
    have hcontains : next.record.fields.contains field = false := by
      rw [SortedMap.contains, hfound]
      rfl
    by_cases hundated : next.record.Undated field
    · have hpasses : ¬next.Touches field := by
        rintro (hfield | hdated)
        · rw [hcontains] at hfield
          cases hfield
        · exact hdated hundated
      exact ⟨own, last, hfrom.passed hpasses fun hdates =>
        hdates.kept (undated_stamped hcontains hundated) _⟩
    · exact ⟨own, next, hfrom.outlives (.inr hundated)
        (fun other hother => absurd hother (hnot other))
        fun hfield => absurd (hcontains.symm.trans hfield) Bool.false_ne_true⟩
  | some incoming =>
    -- whether the value is taken or not, the dates are
    have hcarries : (Merger.overwrite.merge existing next.stamped
        next.headers).record.Carries field next.headers :=
      (carries_stamped hnext.dates (Supplies.contains hfound)).overwrite
        hnext.dates _
    rw [hfound, Option.filter_some] at hvalue
    split at hvalue
    · cases hvalue
      exact ⟨next, next, valueFrom_last hfound hcarries⟩
    · rename_i hkept
      rw [Option.none_or] at hvalue
      rw [hvalue, Bool.not_eq_true, Merger.replaces_eq_false (hnext.fields field incoming hfound)]
        at hkept
      -- an equal value is as good as taken, and otherwise the value stored outlives an error
      rcases hkept with rfl | herror
      · exact ⟨next, next, valueFrom_last hfound hcarries⟩
      · obtain ⟨own, _, hfrom⟩ := h.values field value hvalue
        refine ⟨own, next, hfrom.outlives (Supplies.touches hfound) (fun other hother => ?_)
          fun _ => hcarries⟩
        cases hfound.symm.trans hother
        exact herror

/-- A row is written and read between two responses. -/
theorem MadeFrom.reread (h : r.MadeFrom key responses) : r.reread.MadeFrom key responses := by
  have hfields : r.reread.fields = r.fields :=
    SortedMap.mapValues_eq_self fun field value hfind =>
      (h.fields field value hfind).choose_spec.reread_eq
  refine ⟨h.key, hfields ▸ h.fields, fun field value hvalue => ?_⟩
  rw [hfields] at hvalue
  obtain ⟨own, last, hfrom⟩ := h.values field value hvalue
  exact ⟨own, last, hfrom.supplied, hfrom.touched, hfrom.outlived,
    fun hlast => (hfrom.dated hlast).reread⟩

end Record

namespace Response

variable {key : Key} {responses : List Response} {next : Response} {current : Option Record}

/-- What is under the key after responses, and nothing before the first. -/
def MadeOf (key : Key) (responses : List Response) : Option Record → Prop
  | none => responses = []
  | some r => r.MadeFrom key responses

/-- What becomes of a record, if there is one, when the response is merged into it. -/
def settle (next : Response) (current : Option Record) : Record :=
  current.elim next.stamped fun existing =>
    (Merger.overwrite.merge existing next.stamped next.headers).record

theorem MadeOf.settle (h : MadeOf key responses current) (hnext : next.IsPlain key) :
    (next.settle current).MadeFrom key (responses ++ [next]) := by
  cases current with
  | none =>
    cases h
    exact Record.madeFrom_stamped hnext
  | some existing => exact Record.MadeFrom.merge h hnext

end Response
end RecordCache
