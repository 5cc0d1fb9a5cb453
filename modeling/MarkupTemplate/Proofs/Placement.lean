import MarkupTemplate.Proofs.Tokens

/-!
Tokens with their offsets. A text has one list of them in which no two runs touch and no `<` of a
run has the rest of a tag behind it.
-/
namespace MarkupTemplate

namespace Placed

@[simp] theorem map_token_ofTokens (offset : Nat) (ts : List Token) :
    (ofTokens offset ts).map (·.token) = ts := by
  induction ts generalizing offset with
  | nil => rfl
  | cons t ts ih => simp [ofTokens, ih]

@[simp] theorem length_ofTokens (offset : Nat) (ts : List Token) :
    (ofTokens offset ts).length = ts.length := by
  have := congrArg List.length (map_token_ofTokens offset ts)
  rwa [List.length_map] at this

theorem ofTokens_append (offset : Nat) (ts us : List Token) :
    ofTokens offset (ts ++ us) =
      ofTokens offset ts ++ ofTokens (offset + Text.byteSize ts.flatten) us := by
  induction ts generalizing offset with
  | nil => simp [ofTokens]
  | cons t ts ih => simp [ofTokens, ih, Nat.add_assoc]

/-- A cut through the list is a cut through the tokens. -/
theorem exists_of_ofTokens_eq_append {offset : Nat} {ts : List Token} {before after : List Placed}
    (h : ofTokens offset ts = before ++ after) :
    ∃ us vs, ts = us ++ vs ∧ before = ofTokens offset us ∧
      after = ofTokens (offset + Text.byteSize us.flatten) vs := by
  have htokens : ts = before.map (·.token) ++ after.map (·.token) := by
    have := congrArg (List.map (·.token)) h
    simpa using this
  rw [htokens, ofTokens_append] at h
  have hlength : (ofTokens offset (before.map (·.token))).length = before.length := by simp
  obtain ⟨hbefore, hafter⟩ := List.append_inj h hlength
  exact ⟨_, _, htokens, hbefore.symm, hafter.symm⟩

/-- A place is the size of all that stands before it. -/
theorem offset_of_append {offset : Nat} {ts : List Token} {before after : List Placed} {p : Placed}
    (h : ofTokens offset ts = before ++ p :: after) :
    p.offset = offset + Text.byteSize (before.map (·.token)).flatten := by
  obtain ⟨us, vs, -, rfl, hafter⟩ := exists_of_ofTokens_eq_append h
  cases vs with
  | nil => cases hafter
  | cons t vs => rw [(List.cons.inj hafter).1, map_token_ofTokens]

theorem eq_ofTokens {offset : Nat} {ps : List Placed}
    (h : ∀ before p after, ps = before ++ p :: after →
      p.offset = offset + Text.byteSize (before.map (·.token)).flatten) :
    ps = ofTokens offset (ps.map (·.token)) := by
  induction ps generalizing offset with
  | nil => rfl
  | cons p ps ih =>
    have hp : p.offset = offset := by simpa using h [] p ps rfl
    have hps : ps = ofTokens (offset + Text.byteSize p.token) (ps.map (·.token)) := by
      apply ih
      intro before q after he
      have := h (p :: before) q after (by rw [he, List.cons_append])
      simpa [Nat.add_assoc] using this
    rw [List.map_cons, ofTokens, ← hps, ← hp]

theorem stop_of_getLast? {offset : Nat} {ts : List Token} {p : Placed}
    (h : (ofTokens offset ts).getLast? = some p) :
    p.stop = offset + Text.byteSize ts.flatten := by
  obtain ⟨before, he⟩ := List.getLast?_eq_some_iff.mp h
  have htokens := congrArg (List.map (·.token)) he
  rw [map_token_ofTokens] at htokens
  rw [stop, offset_of_append he, htokens]
  simp [Nat.add_assoc]

end Placed

namespace Token

/-- What behind a `<` keeps it from beginning a tag: a `>` at once, or none at all. -/
def Inert (rest : Text) : Prop := rest.head? = some '>' ∨ '>' ∉ rest

theorem Inert.of_append {rest more : Text} (h : Inert (rest ++ more)) : Inert rest := by
  cases rest with
  | nil => exact .inr (by simp)
  | cons c rest =>
    rcases h with h | h
    · exact .inl h
    · exact .inr fun hmem => h (List.mem_append_left more hmem)

theorem Closed.head?_of_append {front back : Text} (h : Closed (front ++ '<' :: back)) :
    back.head? = some '>' := by
  generalize hr : front ++ '<' :: back = r at h
  induction h generalizing front with
  | nil => simp at hr
  | char hc _ ih =>
    cases front with
    | nil => exact absurd (List.cons.inj hr).1.symm hc
    | cons d front => exact ih (List.cons.inj hr).2
  | pair _ ih =>
    match front with
    | [] =>
      have hback := (List.cons.inj hr).2
      rw [hback]
      rfl
    | [d] => simp at hr
    | d :: e :: front => exact ih (List.cons.inj (List.cons.inj hr).2).2

theorem IsTail.inert {front back : Text} (h : IsTail (front ++ '<' :: back)) : Inert back := by
  rcases h with h | ⟨front', body, hf, hb, he⟩
  · exact .inl h.head?_of_append
  rcases List.append_eq_append_iff.mp he with ⟨mid, hmid, hrest⟩ | ⟨mid, hmid, hrest⟩
  · cases mid with
    | nil =>
      have hback := (List.cons.inj hrest).2
      exact .inr (hback ▸ hb)
    | cons c mid =>
      -- The `<` stands in the closed part.
      obtain ⟨rfl, htail⟩ := List.cons.inj hrest
      have hback : back = mid ++ '<' :: body := htail
      rw [hmid] at hf
      have hhead := hf.head?_of_append
      left
      rw [hback, List.head?_append, hhead]
      rfl
  · cases mid with
    | nil =>
      have hback := (List.cons.inj hrest).2
      exact .inr (hback ▸ hb)
    | cons c mid =>
      have hbody := (List.cons.inj hrest).2
      right
      intro hgt
      apply hb
      rw [hbody]
      simp [hgt]

theorem isTail_of_inert {r : Text} (h : ∀ front back, r = front ++ '<' :: back → Inert back) :
    IsTail r := by
  match r with
  | [] => exact .inl .nil
  | c :: r =>
    by_cases hc : c = '<'
    · subst hc
      rcases h [] r rfl with hhead | hgt
      · obtain ⟨rest, rfl⟩ := List.head?_eq_some_iff.mp hhead
        have hrest : IsTail rest := by
          apply isTail_of_inert
          intro front back he
          exact h ('<' :: '>' :: front) back (by rw [he]; rfl)
        have hpair : Closed ['<', '>'] := .pair .nil
        exact hpair.append_isTail hrest
      · exact .inr ⟨[], r, .nil, hgt, rfl⟩
    · have hr : IsTail r := by
        apply isTail_of_inert
        intro front back he
        exact h (c :: front) back (by rw [he]; rfl)
      have hchar : Closed [c] := .char hc .nil
      exact hchar.append_isTail hr
termination_by r.length

/-- The text that ends a run is no longer open if a tag follows. -/
theorem IsTail.closed {r t : Text} (h : IsTail r) (ht : IsTag t) {rest : Text}
    (hinert : ∀ front back, r = front ++ '<' :: back → Inert (back ++ (t ++ rest))) :
    Closed r := by
  rcases h with h | ⟨front, body, hf, hb, rfl⟩
  · exact h
  obtain ⟨inner, -, -, rfl⟩ := ht
  rcases hinert front body rfl with hhead | hgt
  · cases body with
    | nil => simp at hhead
    | cons c body =>
      have hc : c = '>' := Option.some.inj hhead
      exact absurd (hc ▸ List.mem_cons_self) hb
  · exact absurd (by simp) hgt

/-- Tokens with nothing left to join or to split, each seen by itself with what follows it. -/
structure Separate (ts : List Token) : Prop where
  ne_nil : ∀ t ∈ ts, t ≠ []
  apart : ∀ before t u after, ts = before ++ t :: u :: after → IsTag t ∨ IsTag u
  inert : ∀ before r after, ts = before ++ r :: after → ¬ IsTag r →
    ∀ front back, r = front ++ '<' :: back → Inert (back ++ after.flatten)

namespace Separate

theorem of_cons {t : Token} {ts : List Token} (h : Separate (t :: ts)) : Separate ts where
  ne_nil := fun u hu => h.ne_nil u (List.mem_cons_of_mem t hu)
  apart := by
    intro before u v after he
    exact h.apart (t :: before) u v after (by rw [he, List.cons_append])
  inert := by
    intro before r after he
    exact h.inert (t :: before) r after (by rw [he, List.cons_append])

theorem tokenized {ts : List Token} (h : Separate ts) : Tokenized ts := by
  match ts with
  | [] => exact .nil
  | t :: ts =>
    have hrest := h.of_cons.tokenized
    by_cases ht : IsTag t
    · exact .tag ht hrest
    have hne := h.ne_nil t List.mem_cons_self
    have hinert := h.inert [] t ts rfl ht
    have htail : IsTail t := isTail_of_inert fun front back he => (hinert front back he).of_append
    cases ts with
    | nil => exact .tail hne htail
    | cons u ts =>
      have hu := (h.apart [] t u ts rfl).resolve_left ht
      have hclosed := htail.closed hu hinert
      exact .run hne hclosed hu h.of_cons.of_cons.tokenized

end Separate

namespace Tokenized

theorem ne_nil {ts : List Token} (h : Tokenized ts) : ∀ t ∈ ts, t ≠ [] := by
  induction h with
  | nil => simp
  | tag ht _ ih => exact List.forall_mem_cons.mpr ⟨ht.ne_nil, ih⟩
  | run hne _ ht _ ih =>
    exact List.forall_mem_cons.mpr ⟨hne, List.forall_mem_cons.mpr ⟨ht.ne_nil, ih⟩⟩
  | tail hne => simpa using hne

theorem separate {ts : List Token} (h : Tokenized ts) : Separate ts where
  ne_nil := h.ne_nil
  apart := by
    intro before t u after he
    rw [he] at h
    cases h.of_append.2 with
    | tag ht => exact .inl ht
    | run _ _ hu => exact .inr hu
  inert := by
    intro before r after he hrun front back hr
    rw [he] at h
    rcases h.of_append.2.cases_cons with htag | hclosed | ⟨htail, rfl⟩
    · exact absurd htag hrun
    · rw [hr] at hclosed
      left
      rw [List.head?_append, hclosed.head?_of_append]
      rfl
    · rw [hr] at htail
      simpa using htail.inert

end Tokenized

end Token

open Token

/-- Tags and runs one behind the other, each in its place, that make up the text. -/
structure IsSplit (d : Text) (ps : List Placed) : Prop where
  flatten : (ps.map (·.token)).flatten = d
  offset : ∀ before p after, ps = before ++ p :: after →
    p.offset = Text.byteSize (before.map (·.token)).flatten
  separate : Separate (ps.map (·.token))

theorem isSplit_ofTokens (d : Text) : IsSplit d (Placed.ofTokens 0 (tokens d)) where
  flatten := by rw [Placed.map_token_ofTokens, flatten_tokens]
  offset := by
    intro before p after h
    have := Placed.offset_of_append h
    rwa [Nat.zero_add] at this
  separate := by
    rw [Placed.map_token_ofTokens]
    exact (tokenized_tokens d).separate

theorem IsSplit.eq_ofTokens {d : Text} {ps : List Placed} (h : IsSplit d ps) :
    ps = Placed.ofTokens 0 (tokens d) := by
  have htokens := tokens_eq_of_tokenized h.separate.tokenized h.flatten
  rw [htokens]
  apply Placed.eq_ofTokens
  intro before p after he
  rw [Nat.zero_add, h.offset before p after he]

/-- A run looks like a tag at the end of the text, or if it begins with `<>`. -/
theorem kind_of_run {d : Text} {before after : List Token} {r : Token}
    (h : tokens d = before ++ r :: after) (hrun : ¬ IsTag r) :
    (r.kind = .closing → after = []) ∧
      (r.kind = .opening → after = [] ∨ ∃ rest, r = '<' :: '>' :: rest) := by
  have htok := tokenized_tokens d
  rw [h] at htok
  rcases htok.of_append.2.cases_cons with htag | hclosed | ⟨-, hlast⟩
  · exact absurd htag hrun
  · constructor
    · intro hk
      exact absurd hk hclosed.kind_ne_closing
    · intro hk
      obtain ⟨t, rfl⟩ := exists_of_kind_opening hk
      obtain ⟨rest, rfl, -⟩ := hclosed.eq_pair
      exact .inr ⟨rest, rfl⟩
  · exact ⟨fun _ => hlast, fun _ => .inl hlast⟩

/--
A text has one split, and that is the list of its tokens. Its last token ends where the text does. A
run in it is of the closing kind only at the end of the text, and of the opening kind only there or
if it begins with `<>`.
-/
theorem eq_ofTokens_iff_isSplit (d : Text) :
    (∀ ps, ps = Placed.ofTokens 0 (tokens d) ↔ IsSplit d ps) ∧
      (∀ p, (Placed.ofTokens 0 (tokens d)).getLast? = some p → p.stop = Text.byteSize d) ∧
      ∀ before r after, tokens d = before ++ r :: after → ¬ IsTag r →
        (r.kind = .closing → after = []) ∧
          (r.kind = .opening → after = [] ∨ ∃ rest, r = '<' :: '>' :: rest) := by
  refine ⟨?_, ?_, fun _ _ _ h hrun => kind_of_run h hrun⟩
  · intro ps
    constructor
    · intro h
      rw [h]
      exact isSplit_ofTokens d
    · exact IsSplit.eq_ofTokens
  · intro p hp
    have := Placed.stop_of_getLast? hp
    rwa [Nat.zero_add, flatten_tokens] at this

/-- A tag may have a `<` in it, and a run a `<>`; `é` has two bytes. -/
example : Placed.ofTokens 0 (tokens ['é', '<', '>', '<', '<', 'p', '>', '<']) =
    [⟨0, ['é', '<', '>']⟩, ⟨4, ['<', '<', 'p', '>']⟩, ⟨8, ['<']⟩] := by rfl

end MarkupTemplate
