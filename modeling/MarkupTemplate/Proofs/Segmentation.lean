import MarkupTemplate.Segment

/-!
The segments of a document as its leftmost, outermost, balanced elements: one description of them
that does not run the cut, and the proof that the cut finds what it describes and nothing else.
-/
namespace MarkupTemplate

namespace Token

def closes (n : Text) (t : Token) : Bool := t.kind = .closing ∧ t.name? = some n

def opens (n : Text) (t : Token) : Bool := t.kind = .opening ∧ t.name? = some n

theorem kind_of_closes {n : Text} {t : Token} (h : t.closes n = true) : t.kind = .closing := by
  unfold closes at h
  exact (of_decide_eq_true h).1

theorem opens_eq_false_of_closes {n : Text} {t : Token} (h : t.closes n = true) :
    t.opens n = false := by
  simp_all [closes, opens]

/--
The last token is a closing tag by the name `n`, and so far there are `depth + 1` more of these than
of opening ones.
-/
structure Ends (n : Text) (depth : Nat) (ts : List Token) : Prop where
  last : ∃ c ∈ ts.getLast?, c.closes n = true
  count : ts.countP (closes n) = ts.countP (opens n) + depth + 1

/-- The tokens end where they first can. -/
structure EndsFirst (n : Text) (depth : Nat) (ts : List Token) : Prop extends Ends n depth ts where
  first : ∀ p, p <+: ts → Ends n depth p → p = ts

theorem not_ends_nil {n : Text} {depth : Nat} : ¬ Ends n depth [] := by
  intro h
  have hn := h.count
  rw [List.countP_nil, List.countP_nil] at hn
  omega

/-- The first token matters for the end by what it adds to the count. -/
theorem ends_cons_iff {n : Text} {depth depth' : Nat} {t : Token}
    (hc : ∀ ts, (t :: ts).countP (closes n) = (t :: ts).countP (opens n) + depth + 1 ↔
      ts.countP (closes n) = ts.countP (opens n) + depth' + 1) (ts : List Token) :
    Ends n depth (t :: ts) ↔ Ends n depth' ts := by
  cases ts with
  | nil =>
    apply iff_of_false _ not_ends_nil
    intro h
    have hn := (hc []).mp h.count
    rw [List.countP_nil, List.countP_nil] at hn
    omega
  | cons u us =>
    have hlast : (t :: u :: us).getLast? = (u :: us).getLast? := List.getLast?_cons_cons
    constructor
    · intro h
      exact ⟨hlast ▸ h.last, (hc (u :: us)).mp h.count⟩
    · intro h
      exact ⟨hlast ▸ h.last, (hc (u :: us)).mpr h.count⟩

theorem ends_singleton {n : Text} {t : Token} (ht : t.closes n = true) : Ends n 0 [t] := by
  have ho := opens_eq_false_of_closes ht
  exact ⟨⟨t, rfl, ht⟩, by simp [ht, ho]⟩

theorem ends_cons_of_closes {n : Text} {depth : Nat} {t : Token} (ht : t.closes n = true)
    (ts : List Token) : Ends n (depth + 1) (t :: ts) ↔ Ends n depth ts := by
  have ho := opens_eq_false_of_closes ht
  apply ends_cons_iff
  intro ts
  rw [List.countP_cons_of_pos ht, List.countP_cons_of_neg (by simp [ho])]
  omega

theorem ends_cons_of_opens {n : Text} {depth : Nat} {t : Token} (ht : t.opens n = true)
    (ts : List Token) : Ends n depth (t :: ts) ↔ Ends n (depth + 1) ts := by
  have hc : t.closes n = false := by simp_all [closes, opens]
  apply ends_cons_iff
  intro ts
  rw [List.countP_cons_of_pos ht, List.countP_cons_of_neg (by simp [hc])]
  omega

theorem ends_cons_of_neither {n : Text} {depth : Nat} {t : Token} (hc : t.closes n = false)
    (ho : t.opens n = false) (ts : List Token) : Ends n depth (t :: ts) ↔ Ends n depth ts := by
  apply ends_cons_iff
  intro ts
  rw [List.countP_cons_of_neg (by simp [hc]), List.countP_cons_of_neg (by simp [ho])]

/-- What holds of the end of `t :: ts` and of that of `ts` alike holds of the first ends. -/
theorem EndsFirst.tail {n : Text} {depth depth' : Nat} {t : Token} {ts : List Token}
    (h : EndsFirst n depth (t :: ts)) (hcons : ∀ p, Ends n depth (t :: p) ↔ Ends n depth' p) :
    EndsFirst n depth' ts where
  toEnds := (hcons ts).mp h.toEnds
  first := by
    intro p hp he
    have := h.first (t :: p) (List.prefix_cons_inj t |>.mpr hp) ((hcons p).mpr he)
    exact (List.cons.inj this).2

theorem exists_endsFirst {n : Text} {depth : Nat} {p ts : List Token} (hp : p <+: ts)
    (h : Ends n depth p) : ∃ q, q <+: ts ∧ EndsFirst n depth q := by
  by_cases hfirst : ∀ q, q <+: p → Ends n depth q → q = p
  · exact ⟨p, hp, h, hfirst⟩
  · have ⟨q, hq, he, hne⟩ : ∃ q, q <+: p ∧ Ends n depth q ∧ q ≠ p := by simpa using hfirst
    have hlt : q.length < p.length := by
      have hle := hq.length_le
      have : q.length ≠ p.length := fun heq => hne (hq.eq_of_length heq)
      omega
    exact exists_endsFirst (hq.trans hp) he
termination_by p.length

end Token

open Token

namespace Selector

/-- A token at which an element may begin. -/
def begins (s : Selector) (t : Token) : Bool :=
  s.accepts t ∧ (t.kind = .opening ∨ t.kind = .selfClosing)

def Plain (s : Selector) (ts : List Token) : Prop := ∀ t ∈ ts, s.begins t = false

/-- A self-closing tag, or an opening tag with all up to the first closing tag that balances it. -/
inductive IsElement (s : Selector) : List Token → Prop
  | selfClosing {t : Token} (hk : t.kind = .selfClosing) (ha : s.accepts t = true) :
      IsElement s [t]
  | pair {t : Token} {n : Text} {ts : List Token} (hk : t.kind = .opening)
      (ha : s.accepts t = true) (hn : t.name? = some n) (h : EndsFirst n 0 ts) :
      IsElement s (t :: ts)

/-- An opening tag that has no name, or that no closing tag balances up to the end. -/
inductive IsDangling (s : Selector) : List Token → Prop
  | intro {t : Token} {ts : List Token} (hk : t.kind = .opening) (ha : s.accepts t = true)
      (h : ∀ n, t.name? = some n → ∀ p, p <+: ts → ¬ Ends n 0 p) : IsDangling s (t :: ts)

/--
Elements and what stands between them by turns, what stands between them coming first and last; and
behind that an element that the end leaves open.
-/
inductive Segmented (s : Selector) : List Segment → Prop
  | last {ts : List Token} (h : s.Plain ts) : Segmented s [⟨false, ts⟩]
  | dangling {ts us : List Token} (h : s.Plain ts) (hd : s.IsDangling us) :
      Segmented s [⟨false, ts⟩, ⟨false, us⟩]
  | element {ts e : List Token} {gs : List Segment} (h : s.Plain ts) (he : s.IsElement e)
      (hgs : Segmented s gs) : Segmented s (⟨false, ts⟩ :: ⟨true, e⟩ :: gs)

end Selector

namespace Cut

variable (s : Selector) (held : List Token)

theorem step_outside_of_not_begins {t : Token} (h : s.begins t = false) :
    step s (.outside held) t = ([], .outside (t :: held)) := by
  simp only [step]
  cases hk : t.kind <;> simp_all [Selector.begins]

theorem step_closes_zero {n : Text} {t : Token} (h : t.closes n = true) :
    step s (.inside (some n) 0 held) t = ([⟨true, held.reverse ++ [t]⟩], start) := by
  simp only [closes, decide_eq_true_eq] at h
  simp [step, h.1, h.2]

theorem step_closes_succ {n : Text} {depth : Nat} {t : Token} (h : t.closes n = true) :
    step s (.inside (some n) (depth + 1) held) t = ([], .inside (some n) depth (t :: held)) := by
  simp only [closes, decide_eq_true_eq] at h
  simp [step, h.1, h.2]

theorem step_opens {n : Text} {depth : Nat} {t : Token} (h : t.opens n = true) :
    step s (.inside (some n) depth held) t = ([], .inside (some n) (depth + 1) (t :: held)) := by
  simp only [opens, decide_eq_true_eq] at h
  simp [step, h.1, h.2]

theorem step_neither {n : Text} {depth : Nat} {t : Token} (hc : t.closes n = false)
    (ho : t.opens n = false) :
    step s (.inside (some n) depth held) t = ([], .inside (some n) depth (t :: held)) := by
  simp only [step]
  by_cases hn : t.name? = some n
  · cases hk : t.kind <;> simp_all [closes, opens]
  · simp [hn]

theorem step_nameless {depth : Nat} {t : Token} :
    step s (.inside none depth held) t = ([], .inside none depth (t :: held)) := by
  simp [step]

theorem run_plain {ts : List Token} (h : s.Plain ts) (us : List Token) :
    (machine s).run (.outside held) (ts ++ us) =
      (machine s).run (.outside (ts.reverse ++ held)) us := by
  induction ts generalizing held with
  | nil => rfl
  | cons t ts ih =>
    obtain ⟨ht, hts⟩ := List.forall_mem_cons.mp h
    rw [List.cons_append, Machine.run_cons]
    simp only [machine, step_outside_of_not_begins s held ht, List.nil_append]
    simpa [machine] using ih (t :: held) hts

theorem run_endsFirst {n : Text} {depth : Nat} {ts : List Token} (h : EndsFirst n depth ts)
    (us : List Token) :
    (machine s).run (.inside (some n) depth held) (ts ++ us) =
      ⟨true, held.reverse ++ ts⟩ :: (machine s).run start us := by
  induction ts generalizing depth held with
  | nil => exact absurd h.toEnds not_ends_nil
  | cons t ts ih =>
    rw [List.cons_append, Machine.run_cons]
    cases hc : t.closes n with
    | true =>
      cases depth with
      | zero =>
        have hts : [t] = t :: ts := h.first [t] ⟨ts, rfl⟩ (ends_singleton hc)
        obtain rfl : [] = ts := (List.cons.inj hts).2
        simp [machine, step_closes_zero s held hc]
      | succ depth =>
        have := ih (t :: held) (h.tail (ends_cons_of_closes hc))
        simpa [machine, step_closes_succ s held hc] using this
    | false =>
      cases ho : t.opens n with
      | true =>
        have := ih (t :: held) (h.tail (ends_cons_of_opens ho))
        simpa [machine, step_opens s held ho] using this
      | false =>
        have := ih (t :: held) (h.tail (ends_cons_of_neither hc ho))
        simpa [machine, step_neither s held hc ho] using this

theorem run_nameless (depth : Nat) (ts : List Token) :
    (machine s).run (.inside none depth held) ts = [⟨false, held.reverse ++ ts⟩] := by
  induction ts generalizing held with
  | nil => simp [machine, close]
  | cons t ts ih => simpa [machine, step_nameless] using ih (t :: held)

theorem run_never_ends {n : Text} {depth : Nat} {ts : List Token}
    (h : ∀ p, p <+: ts → ¬ Ends n depth p) :
    (machine s).run (.inside (some n) depth held) ts = [⟨false, held.reverse ++ ts⟩] := by
  induction ts generalizing depth held with
  | nil => simp [machine, close]
  | cons t ts ih =>
    have hp : ∀ p, p <+: ts → ¬ Ends n depth (t :: p) :=
      fun p hp => h (t :: p) ((List.prefix_cons_inj t).mpr hp)
    rw [Machine.run_cons]
    cases hc : t.closes n with
    | true =>
      cases depth with
      | zero => exact absurd (ends_singleton hc) (h [t] ⟨ts, rfl⟩)
      | succ depth =>
        have := ih (t :: held) fun p h' he => hp p h' ((ends_cons_of_closes hc p).mpr he)
        simpa [machine, step_closes_succ s held hc] using this
    | false =>
      cases ho : t.opens n with
      | true =>
        have := ih (t :: held) fun p h' he => hp p h' ((ends_cons_of_opens ho p).mpr he)
        simpa [machine, step_opens s held ho] using this
      | false =>
        have := ih (t :: held) fun p h' he => hp p h' ((ends_cons_of_neither hc ho p).mpr he)
        simpa [machine, step_neither s held hc ho] using this

variable {s}

theorem run_isElement {e : List Token} (h : s.IsElement e) (us : List Token) :
    (machine s).run (.outside held) (e ++ us) =
      ⟨false, held.reverse⟩ :: ⟨true, e⟩ :: (machine s).run start us := by
  cases h with
  | selfClosing hk ha => simp [machine, step, hk, ha]
  | @pair t n ts hk ha hn h =>
    have := run_endsFirst s [t] h us
    rw [List.cons_append, Machine.run_cons]
    simpa [machine, step, hk, ha, hn] using this

theorem run_isDangling {us : List Token} (h : s.IsDangling us) :
    (machine s).run (.outside held) us = [⟨false, held.reverse⟩, ⟨false, us⟩] := by
  cases h with
  | @intro t ts hk ha h =>
    rw [Machine.run_cons]
    cases hn : t.name? with
    | none =>
      have := run_nameless s [t] 0 ts
      simpa [machine, step, hk, ha, hn] using this
    | some n =>
      have := run_never_ends s [t] (h n hn)
      simpa [machine, step, hk, ha, hn] using this

theorem run_segmented {gs : List Segment} (h : s.Segmented gs) :
    (machine s).run start (gs.flatMap (·.tokens)) = gs := by
  induction h with
  | @last ts h =>
    have := run_plain s [] h []
    simpa [machine, start, close] using this
  | @dangling ts us h hd =>
    have := run_plain s [] h us
    rw [List.append_nil, run_isDangling _ hd] at this
    simpa [start] using this
  | @element ts e gs h he _ ih =>
    have := run_plain s [] h (e ++ gs.flatMap (·.tokens))
    rw [List.append_nil, run_isElement _ he, ih] at this
    simpa [start] using this

end Cut

namespace Selector

variable (s : Selector)

theorem plain_or_begins (ts : List Token) :
    s.Plain ts ∨ ∃ us t vs, ts = us ++ t :: vs ∧ s.Plain us ∧ s.begins t = true := by
  induction ts with
  | nil => exact .inl (by simp [Plain])
  | cons t ts ih =>
    by_cases ht : s.begins t = true
    · exact .inr ⟨[], t, ts, rfl, by simp [Plain], ht⟩
    have ht' : s.begins t = false := by simpa using ht
    rcases ih with h | ⟨us, u, vs, rfl, hus, hu⟩
    · exact .inl (List.forall_mem_cons.mpr ⟨ht', h⟩)
    · exact .inr ⟨t :: us, u, vs, rfl, List.forall_mem_cons.mpr ⟨ht', hus⟩, hu⟩

/-- What a token at which an element may begin is the beginning of. -/
theorem element_or_dangling {t : Token} (ht : s.begins t = true) (ts : List Token) :
    (∃ e us, t :: ts = e ++ us ∧ s.IsElement e) ∨ s.IsDangling (t :: ts) := by
  simp only [begins, decide_eq_true_eq] at ht
  obtain ⟨ha, hk | hk⟩ := ht
  · by_cases h : ∀ n, t.name? = some n → ∀ p, p <+: ts → ¬ Ends n 0 p
    · exact .inr (.intro hk ha h)
    · have ⟨n, hn, p, hp, he⟩ : ∃ n, t.name? = some n ∧ ∃ p, p <+: ts ∧ Ends n 0 p := by
        simpa using h
      obtain ⟨q, ⟨us, rfl⟩, hq⟩ := exists_endsFirst hp he
      exact .inl ⟨t :: q, us, rfl, .pair hk ha hn hq⟩
  · exact .inl ⟨[t], ts, rfl, .selfClosing hk ha⟩

theorem IsElement.ne_nil {e : List Token} (h : s.IsElement e) : e ≠ [] := by
  cases h <;> simp

theorem exists_segmented (ts : List Token) :
    ∃ gs : List Segment, gs.flatMap (·.tokens) = ts ∧ s.Segmented gs := by
  rcases s.plain_or_begins ts with h | ⟨us, t, vs, rfl, hus, ht⟩
  · exact ⟨[⟨false, ts⟩], by simp, .last h⟩
  rcases s.element_or_dangling ht vs with ⟨e, ws, heq, he⟩ | hd
  · have hlt : ws.length < (us ++ t :: vs).length := by
      have hpos := List.length_pos_iff.mpr (he.ne_nil s)
      rw [heq, List.length_append, List.length_append]
      omega
    obtain ⟨gs, hgs, hseg⟩ := exists_segmented ws
    exact ⟨⟨false, us⟩ :: ⟨true, e⟩ :: gs, by simp [hgs, heq], .element hus he hseg⟩
  · exact ⟨[⟨false, us⟩, ⟨false, t :: vs⟩], by simp, .dangling hus hd⟩
termination_by ts.length

end Selector

theorem eq_segments_of_segmented {s : Selector} {d : Text} {gs : List Segment}
    (hgs : s.Segmented gs) (ht : gs.flatMap (·.tokens) = tokens d) : gs = segments s d := by
  rw [segments, ← ht, Cut.run_segmented hgs]

theorem segmented_segments (s : Selector) (d : Text) : s.Segmented (segments s d) := by
  obtain ⟨gs, ht, hgs⟩ := s.exists_segmented (tokens d)
  rwa [← eq_segments_of_segmented hgs ht]

/-- Two segments that are not elements stand at the end. -/
def EndsOpen (gs : List Segment) : Prop :=
  ∃ front ts us, gs = front ++ [⟨false, ts⟩, ⟨false, us⟩]

/-- Outside the elements stands an accepted opening tag that is left open up to the end. -/
def MeetsDangling (s : Selector) (gs : List Segment) : Prop :=
  ∃ front g back before t after, gs = front ++ g :: back ∧ g.matched = false ∧
    g.tokens = before ++ t :: after ∧ s.IsDangling (t :: after ++ back.flatMap (·.tokens))

/-- What the segments of a document are, without the cut. -/
structure IsSegmentation (s : Selector) (d : Text) (gs : List Segment) : Prop where
  text : gs.flatMap Segment.text = d
  tokens : gs.flatMap (·.tokens) = MarkupTemplate.tokens d
  segmented : s.Segmented gs
  endsOpen : EndsOpen gs ↔ MeetsDangling s gs

theorem not_endsOpen_singleton (g : Segment) : ¬ EndsOpen [g] := by
  intro hopen
  obtain ⟨front, ts, us, he⟩ := hopen
  have hlength := congrArg List.length he
  simp at hlength

theorem endsOpen_element_iff {ts e : List Token} {gs : List Segment} :
    EndsOpen (⟨false, ts⟩ :: ⟨true, e⟩ :: gs) ↔ EndsOpen gs := by
  constructor
  · intro hopen
    obtain ⟨front, us, vs, he⟩ := hopen
    match front with
    | [] => simp at he
    | [g] => simp at he
    | g :: g' :: front => exact ⟨front, us, vs, (List.cons.inj (List.cons.inj he).2).2⟩
  · intro hopen
    obtain ⟨front, us, vs, rfl⟩ := hopen
    exact ⟨⟨false, ts⟩ :: ⟨true, e⟩ :: front, us, vs, rfl⟩

/-- What is not an element is plain, but for the tail that an open element leaves. -/
theorem Selector.Segmented.unmatched_cases {s : Selector} {gs : List Segment} (h : s.Segmented gs)
    {front back : List Segment} {g : Segment} (hg : gs = front ++ g :: back)
    (hm : g.matched = false) :
    ((EndsOpen gs ∧ back = []) ∧ s.IsDangling g.tokens) ∨
      (¬ (EndsOpen gs ∧ back = []) ∧ s.Plain g.tokens) := by
  induction h generalizing front with
  | @last ts h =>
    right
    match front with
    | [] =>
      obtain ⟨rfl, -⟩ := List.cons.inj hg
      exact ⟨fun hopen => not_endsOpen_singleton _ hopen.1, h⟩
    | f :: front => simp at hg
  | @dangling ts us h hd =>
    match front with
    | [] =>
      obtain ⟨rfl, rfl⟩ := List.cons.inj hg
      exact .inr ⟨by simp, h⟩
    | [f] =>
      obtain ⟨rfl, rfl⟩ := List.cons.inj (List.cons.inj hg).2
      exact .inl ⟨⟨⟨[], ts, us, rfl⟩, rfl⟩, hd⟩
    | f :: f' :: front => simp at hg
  | @element ts e gs h _ _ ih =>
    match front with
    | [] =>
      obtain ⟨rfl, rfl⟩ := List.cons.inj hg
      exact .inr ⟨by simp, h⟩
    | [f] =>
      obtain ⟨rfl, -⟩ := List.cons.inj (List.cons.inj hg).2
      cases hm
    | f :: f' :: front =>
      rw [endsOpen_element_iff]
      exact ih (List.cons.inj (List.cons.inj hg).2).2

theorem endsOpen_iff_meetsDangling {s : Selector} {gs : List Segment} (h : s.Segmented gs) :
    EndsOpen gs ↔ MeetsDangling s gs := by
  constructor
  · intro hopen
    obtain ⟨front, ts, us, rfl⟩ := hopen
    have hlast : front ++ [⟨false, ts⟩, ⟨false, us⟩] =
        (front ++ [⟨false, ts⟩]) ++ [⟨false, us⟩] := by simp
    rcases h.unmatched_cases hlast rfl with ⟨-, hd⟩ | ⟨hnot, -⟩
    · cases hd with
      | @intro t us hk ha hn =>
        refine ⟨front ++ [⟨false, ts⟩], ⟨false, t :: us⟩, [], [], t, us, by simp, rfl, rfl, ?_⟩
        simpa using Selector.IsDangling.intro hk ha hn
    · exact absurd ⟨⟨front, ts, us, rfl⟩, rfl⟩ hnot
  · intro hmeets
    obtain ⟨front, g, back, before, t, after, rfl, hm, hg, hd⟩ := hmeets
    rcases h.unmatched_cases rfl hm with ⟨⟨hopen, -⟩, -⟩ | ⟨-, hplain⟩
    · exact hopen
    · have ht := hplain t (by simp [hg])
      cases hd with
      | intro hk ha => simp [Selector.begins, hk, ha] at ht

/-- The cut finds the one segmentation that a document has. -/
theorem eq_segments_iff (s : Selector) (d : Text) (gs : List Segment) :
    gs = segments s d ↔ IsSegmentation s d gs := by
  constructor
  · intro h
    subst h
    have h := segmented_segments s d
    exact ⟨text_segments s d, tokens_segments s d, h, endsOpen_iff_meetsDangling h⟩
  · intro h
    exact eq_segments_of_segmented h.segmented h.tokens

end MarkupTemplate
