import MarkupTemplate.Proofs.Elements
import MarkupTemplate.Proofs.Placement

/-!
What a part of a document is by itself. Consecutive tokens are found again in their own text, and so
each segment is what it was among the others.
-/
namespace MarkupTemplate

open Token

namespace Placed

/-- The same token behind `n` more bytes. -/
def shift (n : Nat) (p : Placed) : Placed := ⟨n + p.offset, p.token⟩

theorem map_shift_ofTokens (n offset : Nat) (ts : List Token) :
    (ofTokens offset ts).map (shift n) = ofTokens (n + offset) ts := by
  induction ts generalizing offset with
  | nil => rfl
  | cons t ts ih =>
    rw [ofTokens, List.map_cons, ih, ← Nat.add_assoc]
    rfl

end Placed

/-- Nothing around consecutive tokens has a part in what they are. -/
theorem tokens_flatten_of_append {d : Text} {before run after : List Token}
    (h : tokens d = before ++ (run ++ after)) : tokens run.flatten = run := by
  have htok := tokenized_tokens d
  rw [h] at htok
  obtain ⟨-, hrest⟩ := htok.of_append
  exact tokens_flatten hrest.of_append.1

theorem shift_ofTokens_of_append {d : Text} {before run after : List Placed}
    (h : Placed.ofTokens 0 (tokens d) = before ++ (run ++ after)) :
    (Placed.ofTokens 0 (tokens (run.map (·.token)).flatten)).map
      (Placed.shift (Text.byteSize (before.map (·.token)).flatten)) = run := by
  have htokens : tokens d =
      before.map (·.token) ++ (run.map (·.token) ++ after.map (·.token)) := by
    have := congrArg (List.map (·.token)) h
    simpa using this
  rw [tokens_flatten_of_append htokens, Placed.map_shift_ofTokens]
  rw [htokens, Placed.ofTokens_append, Placed.ofTokens_append] at h
  obtain ⟨-, hrest⟩ := List.append_inj h (by simp)
  obtain ⟨hrun, -⟩ := List.append_inj hrest (by simp)
  rwa [Nat.zero_add] at hrun

namespace Selector

variable {s : Selector}

theorem plain_nil : s.Plain [] := by simp [Plain]

theorem Plain.segments_eq {ts : List Token} (h : s.Plain ts) (ht : tokens ts.flatten = ts) :
    segments s ts.flatten = [⟨false, ts⟩] := by
  have hseg : s.Segmented [⟨false, ts⟩] := .last h
  rw [← eq_segments_of_segmented hseg (by simp [ht])]

theorem IsElement.segments_eq {e : List Token} (h : s.IsElement e) (ht : tokens e.flatten = e) :
    segments s e.flatten = [⟨false, []⟩, ⟨true, e⟩, ⟨false, []⟩] := by
  have hseg : s.Segmented [⟨false, []⟩, ⟨true, e⟩, ⟨false, []⟩] :=
    .element plain_nil h (.last plain_nil)
  rw [← eq_segments_of_segmented hseg (by simp [ht])]

theorem IsDangling.segments_eq {us : List Token} (h : s.IsDangling us)
    (ht : tokens us.flatten = us) : segments s us.flatten = [⟨false, []⟩, ⟨false, us⟩] := by
  have hseg : s.Segmented [⟨false, []⟩, ⟨false, us⟩] := .dangling plain_nil h
  rw [← eq_segments_of_segmented hseg (by simp [ht])]

end Selector

/--
Tokens that follow one another are found again in their own text, as far apart as before. An element
by itself is cut out of its text again, the tail of an open element is left open again, and in all
other text nothing is found.
-/
theorem segments_text (s : Selector) (d : Text) :
    (∀ before run after, Placed.ofTokens 0 (tokens d) = before ++ (run ++ after) →
      (Placed.ofTokens 0 (tokens (run.map (·.token)).flatten)).map
        (Placed.shift (Text.byteSize (before.map (·.token)).flatten)) = run) ∧
      ∀ front g back, segments s d = front ++ g :: back →
        (g.matched = true → segments s g.text = [⟨false, []⟩, g, ⟨false, []⟩]) ∧
          (EndsOpen (segments s d) ∧ back = [] → segments s g.text = [⟨false, []⟩, g]) ∧
          (g.matched = false → ¬ (EndsOpen (segments s d) ∧ back = []) →
            segments s g.text = [g]) := by
  refine ⟨fun _ _ _ h => shift_ofTokens_of_append h, ?_⟩
  intro front g back hgs
  have hmem : g ∈ segments s d := by rw [hgs]; simp
  obtain ⟨before, after, htokens⟩ := exists_tokens_eq_append hmem
  have halone := tokens_flatten_of_append htokens
  have hcases := (segmented_segments s d).unmatched_cases hgs
  obtain ⟨matched, ts⟩ := g
  refine ⟨?_, ?_, ?_⟩
  · intro hm
    obtain rfl : matched = true := hm
    exact (isElement_of_mem_segments hmem rfl).segments_eq halone
  · intro hlast
    cases matched with
    | true =>
      -- The last of two segments that are not elements is none.
      obtain ⟨⟨front', us, vs, hopen⟩, rfl⟩ := hlast
      have hend := congrArg List.getLast? (hgs.symm.trans hopen)
      simp [List.getLast?_append] at hend
    | false =>
      rcases hcases rfl with ⟨-, hd⟩ | ⟨hnot, -⟩
      · exact hd.segments_eq halone
      · exact absurd hlast hnot
  · intro hm hnot
    obtain rfl : matched = false := hm
    rcases hcases rfl with ⟨hopen, -⟩ | ⟨-, hplain⟩
    · exact absurd hopen hnot
    · exact hplain.segments_eq halone

end MarkupTemplate
