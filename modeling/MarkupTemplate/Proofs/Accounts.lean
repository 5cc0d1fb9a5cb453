import MarkupTemplate.Proofs.Filling
import MarkupTemplate.Proofs.Segmentation
import MarkupTemplate.Trace

/-!
The trace of a filling as an account of it: what its records say of the document, of the elements
that were found, of one that was left open, and of the outcome.
-/
namespace MarkupTemplate

open Token

namespace Event

def segment? : Event → Option (Bool × Nat)
  | segment matched size => some (matched, size)
  | _ => none

def leftOpen? : Event → Option (Option Text × Nat)
  | leftOpen name depth => some (name, depth)
  | _ => none

def found? : Event → Option Nat
  | found matched _ => some matched
  | _ => none

def noMatch? : Event → Option Nat
  | noMatch size => some size
  | _ => none

def shapeless? : Event → Option ShapeError
  | shapeless e => some e
  | _ => none

end Event

namespace Token

/-- So many more tags of the name open than close. Without a name nothing is counted. -/
def IsDepth : Option Text → Nat → List Token → Prop
  | none, depth, _ => depth = 0
  | some n, depth, ts => ts.countP (opens n) = ts.countP (closes n) + depth

theorem isDepth_nil (name : Option Text) : IsDepth name 0 [] := by
  cases name <;> rfl

theorem IsDepth.concat {n : Text} {depth depth' : Nat} {us : List Token} {u : Token}
    (h : IsDepth (some n) depth us)
    (hu : depth + (if u.opens n then 1 else 0) = depth' + (if u.closes n then 1 else 0)) :
    IsDepth (some n) depth' (us ++ [u]) := by
  simp only [IsDepth, List.countP_append, List.countP_singleton] at h ⊢
  omega

end Token

namespace Selector

/-- An opening tag that is accepted, and what follows it as far as it is left open at the depth. -/
inductive IsOpenAt (s : Selector) : Option Text → Nat → List Token → Prop
  | intro {t : Token} {depth : Nat} {us : List Token} (hk : t.kind = .opening)
      (ha : s.accepts t = true) (h : IsDepth t.name? depth us) :
      IsOpenAt s t.name? depth (t :: us)

theorem IsOpenAt.concat {s : Selector} {name : Option Text} {depth depth' : Nat} {ts : List Token}
    {u : Token} (h : s.IsOpenAt name depth ts)
    (hu : ∀ us, IsDepth name depth us → IsDepth name depth' (us ++ [u])) :
    s.IsOpenAt name depth' (ts ++ [u]) := by
  cases h with
  | intro hk ha h => exact .intro hk ha (hu _ h)

end Selector

namespace Cut

/-- An element is the last that was written, or it is open behind what was written last. -/
def Accounts (s : Selector) (out : List Segment) : Cut → Prop
  | outside _ => ∀ g ∈ out.getLast?, g.matched = true
  | inside name depth held =>
    (∃ g ∈ out.getLast?, g.matched = false) ∧ s.IsOpenAt name depth held.reverse

variable {s : Selector} {out : List Segment}

theorem Accounts.step_outside {held : List Token} (h : Accounts s out (outside held)) (t : Token) :
    Accounts s (out ++ (step s (outside held) t).1) (step s (outside held) t).2 := by
  cases ht : s.begins t with
  | false =>
    rw [step_outside_of_not_begins s held ht]
    simpa [Accounts] using h
  | true =>
    simp only [Selector.begins, decide_eq_true_eq] at ht
    obtain ⟨ha, hk | hk⟩ := ht
    · have hopen : s.IsOpenAt t.name? 0 [t] := .intro hk ha (isDepth_nil _)
      simpa [step, hk, ha, Accounts] using hopen
    · simp [step, hk, ha, Accounts, start, List.getLast?_append]

theorem Accounts.step_inside {name : Option Text} {depth : Nat} {held : List Token}
    (h : Accounts s out (inside name depth held)) (t : Token) :
    Accounts s (out ++ (step s (inside name depth held) t).1)
      (step s (inside name depth held) t).2 := by
  obtain ⟨hlast, hopen⟩ := h
  -- A token that ends nothing is held, and the depth goes with it.
  have hheld : ∀ depth', (∀ us, IsDepth name depth us → IsDepth name depth' (us ++ [t])) →
      Accounts s (out ++ []) (inside name depth' (t :: held)) := by
    intro depth' hdepth
    have hnext := hopen.concat hdepth
    simpa [Accounts] using And.intro hlast hnext
  cases name with
  | none =>
    rw [step_nameless]
    exact hheld depth fun us hus => hus
  | some n =>
    cases hc : t.closes n with
    | true =>
      have ho := opens_eq_false_of_closes hc
      cases depth with
      | zero =>
        rw [step_closes_zero s held hc]
        simp [Accounts, start, List.getLast?_append]
      | succ depth =>
        rw [step_closes_succ s held hc]
        exact hheld depth fun us hus => hus.concat (by simp [hc, ho])
    | false =>
      cases ho : t.opens n with
      | true =>
        rw [step_opens s held ho]
        exact hheld (depth + 1) fun us hus => hus.concat (by simp [hc, ho])
      | false =>
        rw [step_neither s held hc ho]
        exact hheld depth fun us hus => hus.concat (by simp [hc, ho])

theorem accounts_run (s : Selector) (ts : List Token) :
    Accounts s ((machine s).emit start ts) ((machine s).after start ts) := by
  apply Machine.emit_after_induction
  · simp [Accounts, start]
  · intro out cut t h
    cases cut with
    | outside held => exact h.step_outside t
    | inside name depth held => exact h.step_inside t

end Cut

theorem segments_eq_append (s : Selector) (d : Text) :
    segments s d = (Cut.machine s).emit .start (tokens d) ++
      ((Cut.machine s).after .start (tokens d)).close := rfl

/-- What is left open stands behind a segment that is no element, and both are at the end. -/
theorem exists_of_openElement? {s : Selector} {d : Text} {name : Option Text} {depth : Nat}
    (h : openElement? s d = some (name, depth)) : ∃ front ts us,
      segments s d = front ++ [⟨false, ts⟩, ⟨false, us⟩] ∧ s.IsOpenAt name depth us := by
  have haccounts := Cut.accounts_run s (tokens d)
  have hsegments := segments_eq_append s d
  unfold openElement? at h
  split at h
  · cases h
  · next name' depth' held hafter =>
    cases h
    rw [hafter] at haccounts hsegments
    obtain ⟨⟨⟨matched, ts⟩, hlast, hm⟩, hopen⟩ := haccounts
    obtain rfl : matched = false := hm
    obtain ⟨front, hout⟩ := List.getLast?_eq_some_iff.mp hlast
    rw [hout] at hsegments
    exact ⟨front, ts, held.reverse, by simpa [Cut.close] using hsegments, hopen⟩

theorem not_endsOpen_of_openElement? {s : Selector} {d : Text} (h : openElement? s d = none) :
    ¬ EndsOpen (segments s d) := by
  have haccounts := Cut.accounts_run s (tokens d)
  have hsegments := segments_eq_append s d
  unfold openElement? at h
  split at h
  · next held hafter =>
    rw [hafter] at haccounts hsegments
    rintro ⟨front, ts, us, hopen⟩
    have hsplit : front ++ [⟨false, ts⟩] ++ [⟨false, us⟩] =
        (Cut.machine s).emit .start (tokens d) ++ [⟨false, held.reverse⟩] := by
      simpa [Cut.close] using hopen.symm.trans hsegments
    have hfront := (List.append_inj' hsplit rfl).1
    have hmatched := haccounts ⟨false, ts⟩ (by simp [← hfront])
    cases hmatched
  · cases h

theorem openElement?_isSome_iff (s : Selector) (d : Text) :
    openElement? s d ≠ none ↔ EndsOpen (segments s d) := by
  constructor
  · intro h
    obtain ⟨⟨name, depth⟩, hopen⟩ := Option.ne_none_iff_exists'.mp h
    obtain ⟨front, ts, us, hsegments, -⟩ := exists_of_openElement? hopen
    exact ⟨front, ts, us, hsegments⟩
  · intro h hnone
    exact not_endsOpen_of_openElement? hnone h

namespace Segment

def record (g : Segment) : Bool × Nat := (g.matched, Text.byteSize g.text)

theorem sum_map_record (gs : List Segment) :
    (gs.map record).foldr (fun r n => r.2 + n) 0 = Text.byteSize (gs.flatMap text) := by
  induction gs with
  | nil => rfl
  | cons g gs ih =>
    rw [List.map_cons, List.foldr_cons, ih, List.flatMap_cons, Text.byteSize_append]
    rfl

theorem endsOpen_iff_map_record (gs : List Segment) :
    EndsOpen gs ↔ ∃ front m n, gs.map record = front ++ [(false, m), (false, n)] := by
  constructor
  · rintro ⟨front, ts, us, rfl⟩
    exact ⟨front.map record, _, _, List.map_append⟩
  · rintro ⟨front, m, n, h⟩
    obtain ⟨gs, last, rfl, -, hlast⟩ := List.map_eq_append_iff.mp h
    obtain ⟨⟨b, ts⟩, last, rfl, hb, hlast⟩ := List.map_eq_cons_iff.mp hlast
    obtain ⟨⟨c, us⟩, last, rfl, hc, hlast⟩ := List.map_eq_cons_iff.mp hlast
    obtain rfl := List.map_eq_nil_iff.mp hlast
    obtain rfl : b = false := congrArg Prod.fst hb
    obtain rfl : c = false := congrArg Prod.fst hc
    exact ⟨gs, ts, us, rfl⟩

theorem error?_fill (s : Selector) (items : List (Option Text)) (g : Segment) :
    error? (g.fill s items) =
      if g.matched then items.findSome? fun item => error? (putItem s g.text item) else none := by
  have hmap : (do return (← items.mapM (putItem s g.text)).flatten) =
      List.flatten <$> items.mapM (putItem s g.text) := by
    cases items.mapM (putItem s g.text) <;> rfl
  rw [fill, hmap]
  cases g.matched with
  | false => rfl
  | true => rw [if_pos rfl, if_pos rfl, error?_map, error?_mapM]

end Segment

theorem firstShapeError?_eq_findSome? (s : Selector) (items : List (Option Text))
    (gs : List Segment) : firstShapeError? s items gs =
      (gs.filter (·.matched)).findSome? fun g =>
        items.findSome? fun item => error? (putItem s g.text item) := by
  unfold firstShapeError?
  congr 1
  funext g
  congr 1
  funext item
  cases putItem s g.text item <;> rfl

/-- The first item that cannot be put into an element is what the filling fails with. -/
theorem firstShapeError?_eq_error? (s : Selector) (value : Value) (d : Text) :
    firstShapeError? s value.items (segments s d) = error? (fill s value d) := by
  rw [firstShapeError?_eq_findSome?, fill_eq_mapM, error?_map, error?_mapM]
  induction segments s d with
  | nil => rfl
  | cons g gs ih =>
    rw [List.findSome?_cons, Segment.error?_fill, ← ih]
    cases hm : g.matched with
    | false =>
      rw [List.filter_cons_of_neg (by simp [hm])]
      rfl
    | true =>
      rw [List.filter_cons_of_pos hm, List.findSome?_cons, if_pos rfl]

section Trace

variable (s : Selector) (value : Value) (d : Text)

/-- How many of the segments on record are elements. -/
def matchedRecords (es : List Event) : Nat := (es.filterMap Event.segment?).countP (·.1)

/-- What the records of one sort say, from what was met on the way. -/
theorem filterMap_trace {α : Type} {f : Event → Option α} (hbegun : f (.begun s) = none) :
    (trace s value d).filterMap f =
      (openElement? s d).toList.filterMap (fun p => f (.leftOpen p.1 p.2)) ++
        (segments s d).filterMap (fun g => f (.segment g.record.1 g.record.2)) ++
        (if (segments s d).countP (·.matched) = 0 then [.noMatch (Text.byteSize d)]
        else .found ((segments s d).countP (·.matched)) value.items.length ::
          (error? (fill s value d)).toList.map .shapeless).filterMap f := by
  simp only [trace, firstShapeError?_eq_error?, List.cons_append, List.filterMap_cons, hbegun,
    List.filterMap_append, List.filterMap_map]
  rfl

theorem segment?_trace :
    (trace s value d).filterMap Event.segment? = (segments s d).map Segment.record := by
  rw [filterMap_trace s value d rfl]
  split <;> simp [Event.segment?]

theorem leftOpen?_trace :
    (trace s value d).filterMap Event.leftOpen? = (openElement? s d).toList := by
  rw [filterMap_trace s value d rfl]
  split <;> simp [Event.leftOpen?]

theorem matchedRecords_trace :
    matchedRecords (trace s value d) = (segments s d).countP (·.matched) := by
  rw [matchedRecords, segment?_trace, List.countP_map]
  rfl

theorem found?_trace : (trace s value d).filterMap Event.found? =
    if matchedRecords (trace s value d) = 0 then [] else [matchedRecords (trace s value d)] := by
  rw [matchedRecords_trace, filterMap_trace s value d rfl]
  split <;> simp [Event.found?]

theorem noMatch?_trace : (trace s value d).filterMap Event.noMatch? =
    if matchedRecords (trace s value d) = 0 then [Text.byteSize d] else [] := by
  rw [matchedRecords_trace, filterMap_trace s value d rfl]
  split <;> simp [Event.noMatch?]

theorem shapeless?_trace :
    (trace s value d).filterMap Event.shapeless? = (error? (fill s value d)).toList := by
  rw [filterMap_trace s value d rfl]
  split
  · next hcount =>
    have hunmatched : ∀ g ∈ segments s d, g.matched = false := by
      simpa [List.countP_eq_zero] using hcount
    rw [fill_eq_self hunmatched]
    simp [Event.shapeless?, error?]
  · have hfound : Event.shapeless?
        (.found ((segments s d).countP (·.matched)) value.items.length) = none := rfl
    rw [List.filterMap_cons_none hfound]
    cases error? (fill s value d) <;> simp [Event.shapeless?]

end Trace

/-- What the records of a filling have to say of it. -/
structure IsAccount (s : Selector) (value : Value) (d : Text) (es : List Event) : Prop where
  records : es.filterMap Event.segment? = (segments s d).map Segment.record
  /-- Nothing of the document is missing. -/
  sizes : (es.filterMap Event.segment?).foldr (fun r n => r.2 + n) 0 = Text.byteSize d
  found : es.filterMap Event.found? =
    if matchedRecords es = 0 then [] else [matchedRecords es]
  noMatch : es.filterMap Event.noMatch? =
    if matchedRecords es = 0 then [Text.byteSize d] else []
  leftOpen_once : (es.filterMap Event.leftOpen?).length ≤ 1
  leftOpen_iff : es.filterMap Event.leftOpen? ≠ [] ↔
    ∃ front m n, es.filterMap Event.segment? = front ++ [(false, m), (false, n)]
  /-- The last segment is the element that is left open. -/
  depth : ∀ name depth, (name, depth) ∈ es.filterMap Event.leftOpen? →
    ∃ front g, segments s d = front ++ [g] ∧ s.IsOpenAt name depth g.tokens
  shapeless : es.filterMap Event.shapeless? =
    match fill s value d with
    | .ok _ => []
    | .error e => [e]

/-- The trace of a filling agrees with itself, with the segments and with the outcome. -/
theorem isAccount_trace (s : Selector) (value : Value) (d : Text) :
    IsAccount s value d (trace s value d) where
  records := segment?_trace s value d
  sizes := by rw [segment?_trace, Segment.sum_map_record, text_segments]
  found := found?_trace s value d
  noMatch := noMatch?_trace s value d
  leftOpen_once := by
    rw [leftOpen?_trace]
    cases openElement? s d <;> simp
  leftOpen_iff := by
    rw [leftOpen?_trace, segment?_trace, ← Segment.endsOpen_iff_map_record,
      ← openElement?_isSome_iff]
    cases openElement? s d <;> simp
  depth := by
    intro name depth h
    rw [leftOpen?_trace, Option.mem_toList] at h
    obtain ⟨front, ts, us, hsegments, hopen⟩ := exists_of_openElement? h
    exact ⟨front ++ [⟨false, ts⟩], ⟨false, us⟩, by simp [hsegments], hopen⟩
  shapeless := by
    rw [shapeless?_trace]
    cases fill s value d <;> rfl

end MarkupTemplate
