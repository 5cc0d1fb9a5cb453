import MarkupTemplate.Proofs.Content
import MarkupTemplate.Proofs.Joining

/-!
Embedding a fragment. The document around it is a list of frames that do not know what goes into
them, so that a fragment can be filled before it is embedded or where it stands.
-/
namespace MarkupTemplate

open Token

structure Selector.IsEmbedding (s : Selector) : Prop where
  attr : s.attr = none
  embed : s.embed = true

/-- A segment without the content that is replaced. -/
inductive Frame where
  | kept (ts : List Token)
  | around (o c : Token)

namespace Frame

def tokens (inner : List Token) : Frame → List Token
  | kept ts => ts
  | around o c => o :: (inner ++ [c])

def text (inner : Text) : Frame → Text
  | kept ts => ts.flatten
  | around o c => o ++ inner ++ c

theorem flatten_tokens (inner : List Token) (f : Frame) :
    (f.tokens inner).flatten = f.text inner.flatten := by
  cases f <;> simp [tokens, text]

theorem flatten_flatMap_tokens (inner : List Token) (fs : List Frame) :
    (fs.flatMap (tokens inner)).flatten = fs.flatMap (text inner.flatten) := by
  induction fs with
  | nil => rfl
  | cons f fs ih =>
    rw [List.flatMap_cons, List.flatMap_cons, List.flatten_append, flatten_tokens, ih]

/-- No element of the selector begins in what a frame has of the document. -/
def Plain (t : Selector) : Frame → Prop
  | kept ts => t.Plain ts
  | around o c => t.Plain [o] ∧ t.Plain [c]

end Frame

/-- The frame of a segment; an element that is replaced needs its tags. -/
def Segment.frame (s : Selector) (g : Segment) : Except ShapeError Frame :=
  if g.matched then
    match Element.keptTags? g.tokens with
    | some (o, c) => .ok (.around o c)
    | none => .error ⟨s, g.text⟩
  else .ok (.kept g.tokens)

theorem Segment.fill_embedded {s : Selector} (hs : s.IsEmbedding) {d : Text} {g : Segment}
    (hg : g ∈ segments s d) (v : Text) :
    g.fill s (Value.text v).items = Frame.text v <$> g.frame s := by
  obtain ⟨matched, e⟩ := g
  cases matched with
  | false => rfl
  | true =>
    obtain ⟨after, htok⟩ := exists_tokenized_append hg
    rw [fill_keptTags hs.attr (isElement_of_mem_segments hg rfl) htok]
    simp only [frame, if_true]
    cases Element.keptTags? e with
    | none => rfl
    | some p => simp [Value.texts, Selector.written, hs.embed, Frame.text, Functor.map, Except.map]

theorem fill_embedded {s : Selector} (hs : s.IsEmbedding) (v d : Text) :
    Filled.text <$> fill s (.text v) d =
      List.flatMap (Frame.text v) <$> (segments s d).mapM (Segment.frame s) := by
  rw [fill_eq_mapM, mapM_eq_map fun g hg => Segment.fill_embedded hs hg v]
  cases (segments s d).mapM (Segment.frame s) <;> rfl

/-- Which tags a frame has: the first of the element, and a closing tag. -/
inductive Segment.Framed : Segment → Frame → Prop
  | kept {ts : List Token} : Framed ⟨false, ts⟩ (.kept ts)
  | around {e : List Token} {o c : Token} (ho : IsTag o) (hhead : e.head? = some o)
      (hc : IsTag c) (hk : c.kind = .closing) : Framed ⟨true, e⟩ (.around o c)

theorem Segment.framed_of_frame {s : Selector} {d : Text} {g : Segment} (hg : g ∈ segments s d)
    {f : Frame} (hf : g.frame s = .ok f) : g.Framed f := by
  obtain ⟨matched, e⟩ := g
  cases matched with
  | false =>
    cases hf
    exact .kept
  | true =>
    simp only [frame, if_true] at hf
    split at hf
    · next o c hk =>
      cases hf
      obtain ⟨ho, hc, hhead, -⟩ := Element.isTag_of_mem_segments hg rfl hk
      exact .around ho.1 hhead hc.1 hc.2
    · cases hf

theorem forall₂_framed {s : Selector} {d : Text} {fs : List Frame}
    (h : (segments s d).mapM (Segment.frame s) = .ok fs) :
    List.Forall₂ Segment.Framed (segments s d) fs :=
  forall₂_imp_of_mem (mapM_eq_ok_iff.mp h) fun _ hg _ hf => Segment.framed_of_frame hg hf

/-- A closing tag begins no element, and the tags in front are tokens of the document. -/
theorem plain_of_forall₂_framed {s t : Selector} {d : Text} (ht : t.Plain (tokens d))
    {fs : List Frame} (h : List.Forall₂ Segment.Framed (segments s d) fs) :
    ∀ f ∈ fs, f.Plain t := by
  intro f hf
  obtain ⟨g, hg, hframed⟩ := exists_of_forall₂ h hf
  have hplain : t.Plain g.tokens := by
    obtain ⟨before, after, htokens⟩ := exists_tokens_eq_append hg
    intro u hu
    exact ht u (by simp [htokens, hu])
  cases hframed with
  | kept => exact hplain
  | @around e o c _ hhead _ hk =>
    have ho := hplain o (List.mem_of_head? hhead)
    have hc : t.begins c = false := by simp [Selector.begins, hk]
    exact ⟨by simpa [Selector.Plain] using ho, by simpa [Selector.Plain] using hc⟩

theorem Segment.Framed.replaced {g : Segment} {f : Frame} (h : g.Framed f) {inner : List Token}
    (hinner : Tokenized inner) (hlast : EndsWithTag inner) : g.Replaced (f.tokens inner) := by
  cases h with
  | kept => exact .kept
  | around ho hhead hc _ =>
    refine .element ho hhead fun vs hvs => ?_
    have hclosed := hinner.append hlast (.tag hc hvs)
    simpa using hclosed

/-- A fragment that ends with a tag is found again in the frames, token by token. -/
theorem tokens_flatMap_text {s : Selector} {d f : Text} {fs : List Frame}
    (hfs : List.Forall₂ Segment.Framed (segments s d) fs) (hlast : EndsWithTag (tokens f)) :
    tokens (fs.flatMap (Frame.text f)) = fs.flatMap (Frame.tokens (tokens f)) := by
  have hreplaced : List.Forall₂ Segment.Replaced (segments s d)
      (fs.map (Frame.tokens (tokens f))) := by
    rw [List.forall₂_map_right_iff]
    exact hfs.imp fun g frame hframed => hframed.replaced (tokenized_tokens f) hlast
  have htok := tokenized_tokens d
  rw [← tokens_segments s d] at htok
  have hout := tokenized_replaced (segmented_segments s d) hreplaced htok
  have hflat := Frame.flatten_flatMap_tokens (tokens f) fs
  rw [flatten_tokens] at hflat
  exact tokens_eq_of_tokenized hout hflat

section Frames

variable {t : Selector} {w : Value} {inner : List Token} {g : Filled}

/-- In a frame the fragment is filled as it is by itself. -/
theorem Frame.text_fillTokens_append (hinner : t.EndsOutside inner)
    (hg : fillTokens t w inner = .ok g) {f : Frame} (hf : f.Plain t) (rest : List Token) :
    Filled.text <$> fillTokens t w (f.tokens inner ++ rest) =
      (f.text g.text ++ ·) <$> Filled.text <$> fillTokens t w rest := by
  cases f with
  | kept ts =>
    have hts : t.Plain ts := hf
    exact hts.endsOutside.text_fillTokens_append (hts.fillTokens_eq w) rest
  | around o c =>
    obtain ⟨ho, hc⟩ := hf
    have hsplit : (around o c).tokens inner ++ rest = [o] ++ (inner ++ ([c] ++ rest)) := by
      simp [tokens]
    rw [hsplit, ho.endsOutside.text_fillTokens_append (ho.fillTokens_eq w),
      hinner.text_fillTokens_append hg, hc.endsOutside.text_fillTokens_append (hc.fillTokens_eq w)]
    cases fillTokens t w rest with
    | error e => rfl
    | ok x => simp [text, Functor.map, Except.map]

theorem text_fillTokens_frames (hinner : t.EndsOutside inner) (hg : fillTokens t w inner = .ok g)
    {fs : List Frame} (hfs : ∀ f ∈ fs, f.Plain t) :
    Filled.text <$> fillTokens t w (fs.flatMap (Frame.tokens inner)) =
      .ok (fs.flatMap (Frame.text g.text)) := by
  induction fs with
  | nil => rfl
  | cons f fs ih =>
    obtain ⟨hf, hfs⟩ := List.forall_mem_cons.mp hfs
    rw [List.flatMap_cons, Frame.text_fillTokens_append hinner hg hf, ih hfs]
    rfl

end Frames

/--
A fragment that ends with a tag can be filled where it is embedded or before that, by a selector
that finds nothing in the document and leaves nothing open in the fragment.
-/
theorem fill_embedded_fill {s t : Selector} {d f : Text} {w : Value} {g : Filled}
    (hs : s.IsEmbedding) (hlast : EndsWithTag (tokens f)) (hplain : t.Plain (tokens d))
    (hopen : openElement? t f = none) (hg : fill t w f = .ok g) :
    (do let x ← fill s (.text f) d
        let y ← fill t w x.text
        return y.text) =
      (do let x ← fill s (.text g.text) d
          return x.text) := by
  have hembed := fill_embedded hs f d
  have hfilled : (do let x ← fill s (.text g.text) d; return x.text) =
      List.flatMap (Frame.text g.text) <$> (segments s d).mapM (Segment.frame s) :=
    fill_embedded hs g.text d
  rw [hfilled]
  cases hfs : (segments s d).mapM (Segment.frame s) with
  | error e =>
    rw [hfs] at hembed
    rw [map_eq_error_iff.mp hembed]
    rfl
  | ok fs =>
    rw [hfs] at hembed
    obtain ⟨x, hx, htext⟩ := exists_of_map_eq_ok hembed
    have hframed := forall₂_framed hfs
    have hframes := plain_of_forall₂_framed hplain hframed
    rw [fill_eq_fillTokens] at hg
    have hinside := text_fillTokens_frames (Selector.endsOutside_tokens hopen) hg hframes
    rw [← tokens_flatMap_text hframed hlast, ← fill_eq_fillTokens, ← htext] at hinside
    rw [hx]
    exact hinside

/-- Both copies of an inner element stand in the outer one, in front of one that is left open. -/
theorem fill_embedded_fill_of_list :
    (do let x ← fill (.parse ['b', '!']) (.text ['<', 'p', '>', '<', '/', 'p', '>'])
          ['<', 'b', '>', '<', '/', 'b', '>', '<', 'b', '>']
        let y ← fill (.parse ['p']) (.list [['x'], ['&']]) x.text
        return y.text) =
      (do let x ← fill (.parse ['b', '!'])
            (.text ['<', 'p', '>', 'x', '<', '/', 'p', '>', '<', 'p', '>', '&', 'a', 'm', 'p', ';',
              '<', '/', 'p', '>'])
            ['<', 'b', '>', '<', '/', 'b', '>', '<', 'b', '>']
          return x.text) := by
  have hfill : fill (.parse ['p']) (.list [['x'], ['&']]) ['<', 'p', '>', '<', '/', 'p', '>'] =
      .ok ⟨['<', 'p', '>', 'x', '<', '/', 'p', '>', '<', 'p', '>', '&', 'a', 'm', 'p', ';', '<',
        '/', 'p', '>'], true⟩ := by rfl
  have hlast : EndsWithTag (tokens ['<', 'p', '>', '<', '/', 'p', '>']) :=
    ⟨['<', '/', 'p', '>'], by decide, ['/', 'p'], by decide, by decide, rfl⟩
  have hplain : (Selector.parse ['p']).Plain
      (tokens ['<', 'b', '>', '<', '/', 'b', '>', '<', 'b', '>']) := by
    unfold Selector.Plain
    decide
  have hs : (Selector.parse ['b', '!']).IsEmbedding := ⟨by decide, by decide⟩
  have hequal := fill_embedded_fill hs hlast hplain (by decide) hfill
  exact hequal

end MarkupTemplate
