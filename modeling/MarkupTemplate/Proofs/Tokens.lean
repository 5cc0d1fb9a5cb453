import MarkupTemplate.Token

/-!
Tokens as a grammar. A text has one split into tags and runs in which no two runs touch and no tag
begins in a run, and `tokens` finds it.
-/
namespace MarkupTemplate

namespace Token

/-- `<`, at least one character other than `>`, and `>`. -/
def IsTag (t : Token) : Prop := ∃ body : Text, body ≠ [] ∧ '>' ∉ body ∧ t = '<' :: body ++ ['>']

/-- Each `<` has its `>` directly behind it, so that no tag begins here whatever follows. -/
inductive Closed : Text → Prop
  | nil : Closed []
  | char {c : Char} {r : Text} (hc : c ≠ '<') (h : Closed r) : Closed (c :: r)
  | pair {r : Text} (h : Closed r) : Closed ('<' :: '>' :: r)

/-- Where the text ends, one more `<` may stand, with no `>` behind it. -/
def IsTail (r : Text) : Prop :=
  Closed r ∨ ∃ front body : Text, Closed front ∧ '>' ∉ body ∧ r = front ++ '<' :: body

/-- The tokens of a run that may be empty. -/
def ofText (r : Text) : List Token := if r = [] then [] else [r]

@[simp] theorem ofText_nil : ofText [] = [] := rfl

theorem ofText_of_ne_nil {r : Text} (h : r ≠ []) : ofText r = [r] := by simp [ofText, h]

@[simp] theorem flatten_ofText (r : Text) : (ofText r).flatten = r := by
  unfold ofText
  split <;> simp_all

theorem mem_ofText {r t : Text} (h : t ∈ ofText r) : t = r ∧ r ≠ [] := by
  unfold ofText at h
  split at h <;> simp_all

theorem IsTag.ne_nil {t : Token} (h : IsTag t) : t ≠ [] := by
  obtain ⟨body, -, -, rfl⟩ := h
  simp

namespace Closed

theorem append {a b : Text} (ha : Closed a) (hb : Closed b) : Closed (a ++ b) := by
  induction ha with
  | nil => exact hb
  | char hc _ ih => exact char hc ih
  | pair _ ih => exact pair ih

theorem of_not_mem {r : Text} (h : '<' ∉ r) : Closed r := by
  induction r with
  | nil => exact nil
  | cons c r ih =>
    rw [List.mem_cons, not_or] at h
    exact char (Ne.symm h.1) (ih h.2)

/-- A run that begins with `<` begins with `<>`. -/
theorem eq_pair {r : Text} (h : Closed ('<' :: r)) : ∃ r', r = '>' :: r' ∧ Closed r' := by
  cases h with
  | char hc => exact absurd rfl hc
  | pair h => exact ⟨_, rfl, h⟩

theorem not_isTag {t : Token} (h : Closed t) : ¬ IsTag t := by
  intro htag
  obtain ⟨body, hne, hgt, rfl⟩ := htag
  obtain ⟨r, hr, -⟩ := eq_pair h
  cases body with
  | nil => exact hne rfl
  | cons c body =>
    have hc : c = '>' := (List.cons.inj hr).1
    exact hgt (hc ▸ List.mem_cons_self)

end Closed

theorem IsTail.not_isTag {t : Token} (h : IsTail t) : ¬ IsTag t := by
  rcases h with h | ⟨front, body, hf, hb, rfl⟩
  · exact h.not_isTag
  intro htag
  obtain ⟨inner, hne, hgt, he⟩ := htag
  cases hf with
  | nil =>
    have hbody : body = inner ++ ['>'] := (List.cons.inj he).2
    exact hb (by simp [hbody])
  | char hc => exact hc (List.cons.inj he).1
  | pair =>
    cases inner with
    | nil => exact hne rfl
    | cons c inner =>
      have hc : '>' = c := (List.cons.inj (List.cons.inj he).2).1
      exact hgt (hc ▸ List.mem_cons_self)

theorem Closed.append_isTail {a r : Text} (ha : Closed a) (hr : IsTail r) : IsTail (a ++ r) := by
  rcases hr with hr | ⟨front, body, hf, hb, rfl⟩
  · exact .inl (ha.append hr)
  · exact .inr ⟨a ++ front, body, ha.append hf, hb, by rw [List.append_assoc]⟩

/-- The tokens of some text, by what may stand next to what. -/
inductive Tokenized : List Token → Prop
  | nil : Tokenized []
  | tag {t : Token} {ts : List Token} (ht : IsTag t) (h : Tokenized ts) : Tokenized (t :: ts)
  | run {r t : Token} {ts : List Token} (hne : r ≠ []) (hr : Closed r) (ht : IsTag t)
      (h : Tokenized ts) : Tokenized (r :: t :: ts)
  | tail {r : Token} (hne : r ≠ []) (hr : IsTail r) : Tokenized [r]

theorem ofRun_eq (held : Text) : Pending.ofRun held = ofText held.reverse := by
  simp [Pending.ofRun, ofText]

theorem run_body {body : Text} (h : '>' ∉ body) (held before rest : Text) :
    tokenizer.run (.tag held before) (body ++ rest) =
      tokenizer.run (.tag held (body.reverse ++ before)) rest := by
  induction body generalizing before with
  | nil => rfl
  | cons c body ih =>
    rw [List.mem_cons, not_or] at h
    rw [List.cons_append, Machine.run_cons]
    simp only [tokenizer, Pending.step, if_neg (Ne.symm h.1), List.nil_append]
    simpa [tokenizer] using ih h.2 (c :: before)

theorem run_tag {t : Token} (ht : IsTag t) (held rest : Text) :
    tokenizer.run (.run held) (t ++ rest) = ofText held.reverse ++ t :: tokens rest := by
  obtain ⟨body, hne, hgt, rfl⟩ := ht
  rw [List.cons_append, List.cons_append, List.append_assoc, Machine.run_cons]
  have hstart : tokenizer.step (.run held) '<' = ([], .tag held []) := rfl
  rw [hstart, run_body hgt, List.singleton_append, Machine.run_cons]
  simp [tokenizer, Pending.step, hne, ofRun_eq, tokens]

theorem run_closed {r : Text} (h : Closed r) (held rest : Text) :
    tokenizer.run (.run held) (r ++ rest) = tokenizer.run (.run (r.reverse ++ held)) rest := by
  induction h generalizing held with
  | nil => rfl
  | @char c r hc _ ih =>
    rw [List.cons_append, Machine.run_cons]
    simp only [tokenizer, Pending.step, if_neg hc, List.nil_append]
    simpa [tokenizer] using ih (c :: held)
  | @pair r _ ih =>
    rw [List.cons_append, List.cons_append, Machine.run_cons, Machine.run_cons]
    simpa [tokenizer, Pending.step] using ih ('>' :: '<' :: held)

theorem run_tail {r : Text} (h : IsTail r) (held : Text) :
    tokenizer.run (.run held) r = ofText (held.reverse ++ r) := by
  rcases h with h | ⟨front, body, hf, hb, rfl⟩
  · have := run_closed h held []
    simpa [tokenizer, Pending.close, ofRun_eq] using this
  · have hstart : tokenizer.step (.run (front.reverse ++ held)) '<' =
        ([], .tag (front.reverse ++ held) []) := rfl
    have := run_body hb (front.reverse ++ held) [] []
    rw [run_closed hf, Machine.run_cons, hstart]
    simpa [tokenizer, Pending.close, ofRun_eq] using this

end Token

open Token

theorem tokens_tag_append {t : Token} (ht : IsTag t) (rest : Text) :
    tokens (t ++ rest) = t :: tokens rest := by
  rw [tokens, run_tag ht]
  rfl

theorem tokens_run_append {r t : Token} (hr : Closed r) (ht : IsTag t) (rest : Text) :
    tokens (r ++ (t ++ rest)) = ofText r ++ t :: tokens rest := by
  rw [tokens, run_closed hr, run_tag ht]
  simp

theorem tokens_tail {r : Text} (h : IsTail r) : tokens r = ofText r := run_tail h []

/-- Tokens that fit together are found again. -/
theorem tokens_flatten {ts : List Token} (h : Tokenized ts) : tokens ts.flatten = ts := by
  induction h with
  | nil => rfl
  | tag ht _ ih => rw [List.flatten_cons, tokens_tag_append ht, ih]
  | run hne hr ht _ ih =>
    rw [List.flatten_cons, List.flatten_cons, tokens_run_append hr ht, ih, ofText_of_ne_nil hne]
    rfl
  | tail hne hr => simp [tokens_tail hr, ofText_of_ne_nil hne]

namespace Token

/-- What the tokenizer holds has no tag in it. -/
def Pending.Sound : Pending → Prop
  | .run held => Closed held.reverse
  | .tag held body => Closed held.reverse ∧ '>' ∉ body

theorem Pending.Sound.step {p : Pending} (h : p.Sound) (c : Char) : (p.step c).2.Sound := by
  cases p with
  | run held =>
    by_cases hc : c = '<'
    · simpa [Pending.step, hc, Sound] using h
    · have hlast : Closed [c] := .char hc .nil
      simpa [Pending.step, hc, Sound] using Closed.append h hlast
  | tag held body =>
    obtain ⟨hheld, hbody⟩ := h
    by_cases hc : c = '>'
    · by_cases hb : body = []
      · have hlast : Closed ['<', '>'] := .pair .nil
        simpa [Pending.step, hc, hb, Sound] using hheld.append hlast
      · simpa [Pending.step, hc, hb, Sound] using Closed.nil
    · simp only [Pending.step, if_neg hc, Sound, List.mem_cons, not_or]
      exact ⟨hheld, Ne.symm hc, hbody⟩

/-- A run before a tag, and what follows the tag. -/
theorem Tokenized.ofText_append {r t : Token} {ts : List Token} (hr : Closed r) (ht : IsTag t)
    (h : Tokenized ts) : Tokenized (ofText r ++ t :: ts) := by
  by_cases hne : r = []
  · subst hne
    exact .tag ht h
  · rw [ofText_of_ne_nil hne]
    exact .run hne hr ht h

theorem Tokenized.ofText {r : Text} (h : IsTail r) : Tokenized (ofText r) := by
  by_cases hne : r = []
  · subst hne
    exact .nil
  · rw [ofText_of_ne_nil hne]
    exact .tail hne h

theorem tokenized_run {p : Pending} (h : p.Sound) (t : Text) : Tokenized (tokenizer.run p t) := by
  induction t generalizing p with
  | nil =>
    cases p with
    | run held =>
      simp only [Machine.run_nil, tokenizer, Pending.close, ofRun_eq]
      exact .ofText (.inl h)
    | tag held body =>
      obtain ⟨hheld, hbody⟩ := h
      simp only [Machine.run_nil, tokenizer, Pending.close, ofRun_eq]
      have hbody' : '>' ∉ body.reverse := by simpa using hbody
      apply Tokenized.ofText
      exact .inr ⟨held.reverse, body.reverse, hheld, hbody', by simp⟩
  | cons c t ih =>
    have hnext := ih (h.step c)
    rw [Machine.run_cons]
    by_cases hout : (p.step c).1 = []
    · simpa [tokenizer, hout] using hnext
    -- Only the `>` that ends a tag writes anything.
    cases p with
    | run held => by_cases hc : c = '<' <;> simp [Pending.step, hc] at hout
    | tag held body =>
      obtain ⟨hheld, hbody⟩ := h
      by_cases hc : c = '>'
      · by_cases hb : body = []
        · simp [Pending.step, hc, hb] at hout
        · have htag : IsTag ('<' :: body.reverse ++ ['>']) :=
            ⟨body.reverse, by simpa using hb, by simpa using hbody, rfl⟩
          simp only [tokenizer, Pending.step, if_pos hc, if_neg hb, ofRun_eq] at hnext ⊢
          simpa using Tokenized.ofText_append hheld htag hnext
      · simp [Pending.step, hc] at hout

end Token

theorem tokenized_tokens (d : Text) : Tokenized (tokens d) :=
  tokenized_run (p := .run []) Closed.nil d

/-- The grammar has one list of tokens for each text. -/
theorem tokens_eq_of_tokenized {d : Text} {ts : List Token} (h : Tokenized ts)
    (he : ts.flatten = d) : tokens d = ts := by
  rw [← he, tokens_flatten h]

namespace Token

namespace Tokenized

theorem of_append {us vs : List Token} (h : Tokenized (us ++ vs)) :
    Tokenized us ∧ Tokenized vs := by
  generalize hts : us ++ vs = ts at h
  induction h generalizing us with
  | nil =>
    obtain ⟨rfl, rfl⟩ := List.append_eq_nil_iff.mp hts
    exact ⟨.nil, .nil⟩
  | @tag t ts ht h ih =>
    cases us with
    | nil =>
      rw [List.nil_append] at hts
      exact ⟨.nil, hts ▸ .tag ht h⟩
    | cons u us =>
      obtain ⟨rfl, hrest⟩ := List.cons.inj hts
      obtain ⟨hus, hvs⟩ := ih hrest
      exact ⟨.tag ht hus, hvs⟩
  | @run r t ts hne hr ht h ih =>
    match us with
    | [] =>
      rw [List.nil_append] at hts
      exact ⟨.nil, hts ▸ .run hne hr ht h⟩
    | [u] =>
      obtain ⟨rfl, rfl⟩ := List.cons.inj hts
      exact ⟨.tail hne (.inl hr), .tag ht h⟩
    | u :: u' :: us =>
      rw [List.cons_append, List.cons_append] at hts
      obtain ⟨rfl, hmore⟩ := List.cons.inj hts
      obtain ⟨rfl, hrest⟩ := List.cons.inj hmore
      obtain ⟨hus, hvs⟩ := ih hrest
      exact ⟨.run hne hr ht hus, hvs⟩
  | @tail r hne hr =>
    cases us with
    | nil =>
      rw [List.nil_append] at hts
      exact ⟨.nil, hts ▸ .tail hne hr⟩
    | cons u us =>
      obtain ⟨rfl, hrest⟩ := List.cons.inj hts
      obtain ⟨rfl, rfl⟩ := List.append_eq_nil_iff.mp hrest
      exact ⟨.tail hne hr, .nil⟩

theorem of_cons {t : Token} {ts : List Token} (h : Tokenized (t :: ts)) : Tokenized ts := by
  have h' : Tokenized ([t] ++ ts) := h
  exact h'.of_append.2

/-- What stands before a tag does not depend on what follows it. -/
theorem append_tag {us ts vs : List Token} {t : Token} (h : Tokenized (us ++ t :: ts))
    (ht : IsTag t) (hv : Tokenized vs) : Tokenized (us ++ t :: vs) := by
  generalize hall : us ++ t :: ts = all at h
  induction h generalizing us with
  | nil => simp at hall
  | @tag u rest hu _ ih =>
    cases us with
    | nil => exact .tag ht hv
    | cons u' us =>
      obtain ⟨rfl, hrest⟩ := List.cons.inj hall
      exact .tag hu (ih hrest)
  | @run r u rest hne hr hu _ ih =>
    match us with
    | [] => exact .tag ht hv
    | [r'] =>
      obtain ⟨rfl, -⟩ := List.cons.inj hall
      exact .run hne hr ht hv
    | r' :: u' :: us =>
      rw [List.cons_append, List.cons_append] at hall
      obtain ⟨rfl, hmore⟩ := List.cons.inj hall
      obtain ⟨rfl, hrest⟩ := List.cons.inj hmore
      exact .run hne hr hu (ih hrest)
  | @tail r hne hr =>
    cases us with
    | nil => exact .tag ht hv
    | cons u us => simp at hall

/-- The first token is a tag, or a run that only the end of the text leaves open. -/
theorem cases_cons {t : Token} {ts : List Token} (h : Tokenized (t :: ts)) :
    IsTag t ∨ Closed t ∨ (IsTail t ∧ ts = []) := by
  cases h with
  | tag ht => exact .inl ht
  | run _ hr => exact .inr (.inl hr)
  | tail _ hr => exact .inr (.inr ⟨hr, rfl⟩)

/-- Only at the end a run is left open. -/
theorem isTag_or_closed {us vs : List Token} (h : Tokenized (us ++ vs)) (hvs : vs ≠ []) :
    ∀ t ∈ us, IsTag t ∨ Closed t := by
  intro t ht
  obtain ⟨front, back, rfl⟩ := List.append_of_mem ht
  rw [List.append_assoc, List.cons_append] at h
  rcases h.of_append.2.cases_cons with htag | hclosed | ⟨-, hnil⟩
  · exact .inl htag
  · exact .inr hclosed
  · exact absurd (List.append_eq_nil_iff.mp hnil).2 hvs

end Tokenized

theorem kind_eq_closing {t : Token} : t.kind = .closing ↔ ∃ r, t = '<' :: '/' :: r := by
  constructor
  · intro h
    have hp : ['<', '/'].isPrefixOf t = true := by grind [kind]
    obtain ⟨r, rfl⟩ := List.isPrefixOf_iff_prefix.mp hp
    exact ⟨r, rfl⟩
  · intro h
    obtain ⟨r, rfl⟩ := h
    simp [kind]

theorem exists_of_kind_opening {t : Token} (h : t.kind = .opening) : ∃ r, t = '<' :: r := by
  have hp : ['<'].isPrefixOf t = true := by grind [kind]
  obtain ⟨r, rfl⟩ := List.isPrefixOf_iff_prefix.mp hp
  exact ⟨r, rfl⟩

theorem exists_of_kind_selfClosing {t : Token} (h : t.kind = .selfClosing) :
    ∃ front, t = front ++ ['/', '>'] := by
  have hs : ['/', '>'].isSuffixOf t = true := by grind [kind]
  obtain ⟨front, rfl⟩ := List.isSuffixOf_iff_suffix.mp hs
  exact ⟨front, rfl⟩

theorem kind_eq_text {t : Token} (h : '<' ∉ t) (h' : '>' ∉ t) : kind t = .text := by
  cases hk : kind t with
  | text => rfl
  | opening =>
    obtain ⟨r, rfl⟩ := exists_of_kind_opening hk
    exact absurd List.mem_cons_self h
  | closing =>
    obtain ⟨r, rfl⟩ := kind_eq_closing.mp hk
    exact absurd List.mem_cons_self h
  | selfClosing =>
    obtain ⟨front, rfl⟩ := exists_of_kind_selfClosing hk
    exact absurd (by simp) h'

theorem Closed.kind_ne_closing {t : Token} (h : Closed t) : t.kind ≠ .closing := by
  intro hk
  obtain ⟨r, rfl⟩ := kind_eq_closing.mp hk
  obtain ⟨r', hr, -⟩ := h.eq_pair
  simp at hr

/-- The `>` of a leading `<>` ends the name before it begins. -/
theorem Closed.name?_eq_none {t : Token} (h : Closed t) : t.name? = none := by
  cases h with
  | nil => rfl
  | char hc =>
    unfold name?
    split
    · next h => exact absurd (List.cons.inj h).1 hc
    · next h => exact absurd (List.cons.inj h).1 hc
    · rfl
  | pair => rfl

end Token

end MarkupTemplate
