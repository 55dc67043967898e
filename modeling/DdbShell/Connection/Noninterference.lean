import DdbShell.Connection.Binding
import DdbShell.Connection.Seams

/-!
What the bound values of a prepared statement can do to its tokens. Substitution
is textual and comes before scanning, so a value's literal can join what stands
next to it; whether some literal does is decided by the template alone.
-/

namespace DdbShell

open Flex (Lexeme scan Closed texts tokens)
open Lexer Literal

/-- The lexemes of an expanded text fall apart into those of its pieces. -/
structure Tokenized (e : Expansion) (first : List (Lexeme SymbolType))
    (rest : List (List (Lexeme SymbolType) × List (Lexeme SymbolType))) : Prop where
  whole : scan rules e.text = first ++ rest.flatMap fun g => g.1 ++ g.2
  first : texts first = e.first
  rest : List.Forall₂ (fun piece g => texts g.1 = piece.1 ∧ texts g.2 = piece.2) e.rest rest

/-- Two expansions of one template have the same tokens outside the places of
the placeholders, and at each placeholder those of one complete value literal. -/
def Noninterfering (e₁ e₂ : Expansion) : Prop :=
  ∃ first₁ rest₁ first₂ rest₂, Tokenized e₁ first₁ rest₁ ∧ Tokenized e₂ first₂ rest₂ ∧
    tokens first₁ = tokens first₂ ∧
    List.Forall₂ (fun g h => tokens g.2 = tokens h.2 ∧
      (∃ v, LeeRhs (tokens g.1) v) ∧ ∃ v, LeeRhs (tokens h.1) v) rest₁ rest₂

/-! ### The condition on the template -/

/-- Each placeholder stands by itself. -/
def isolatedRest : List (Slot × List Char) → Bool
  | [] => true
  | [place] => clear true place.2
  | place :: next :: places =>
      clear false place.2 && shut place.2 && isolatedRest (next :: places)

def Frame.isolated (f : Frame) : Bool :=
  f.rest.isEmpty || shut f.first && isolatedRest f.rest

/-! ### Pieces scanned separately -/

def restText (pieces : List (List Char × List Char)) : List Char :=
  pieces.flatMap fun piece => piece.1 ++ piece.2

def pieceLexemes (pieces : List (List Char × List Char)) : List (Lexeme SymbolType) :=
  pieces.flatMap fun piece => scan rules piece.1 ++ scan rules piece.2

/-- Every piece of the text is scanned as if it stood alone. -/
def Splits (e : Expansion) : Prop :=
  scan rules e.text = scan rules e.first ++ pieceLexemes e.rest

theorem texts_pieceLexemes (pieces : List (List Char × List Char)) :
    texts (pieceLexemes pieces) = restText pieces := by
  induction pieces with
  | nil => rfl
  | cons piece pieces ih =>
      have hlexemes : pieceLexemes (piece :: pieces) =
          (scan rules piece.1 ++ scan rules piece.2) ++ pieceLexemes pieces := rfl
      have htext : restText (piece :: pieces) = (piece.1 ++ piece.2) ++ restText pieces := rfl
      rw [hlexemes, htext, Flex.texts_append, Flex.texts_append, Flex.texts_scan covers,
        Flex.texts_scan covers, ih]

/-- A group of the lexemes of a text is what its own text is scanned to. -/
theorem scan_group {s : List Char} {xs ls ys : List (Lexeme SymbolType)}
    (h : scan rules s = xs ++ (ls ++ ys)) : scan rules (texts ls) = ls :=
  Flex.scan_texts_left covers (Flex.scan_texts_right covers h)

theorem groups_eq {s : List Char} {front : List (Lexeme SymbolType)}
    {pieces : List (List Char × List Char)}
    {rest : List (List (Lexeme SymbolType) × List (Lexeme SymbolType))}
    (hscan : scan rules s = front ++ rest.flatMap fun g => g.1 ++ g.2)
    (hrest : List.Forall₂ (fun piece g => texts g.1 = piece.1 ∧ texts g.2 = piece.2) pieces rest) :
    rest = pieces.map fun piece => (scan rules piece.1, scan rules piece.2) := by
  induction hrest generalizing front with
  | nil => rfl
  | @cons piece g pieces rest hg _ ih =>
      rw [List.flatMap_cons] at hscan
      obtain ⟨hfirst, hsecond⟩ := hg
      have hone : scan rules piece.1 = g.1 := by
        rw [← hfirst]
        exact scan_group (by rw [hscan, List.append_assoc])
      have htwo : scan rules piece.2 = g.2 := by
        rw [← hsecond]
        have hsplit : scan rules s =
            (front ++ g.1) ++ (g.2 ++ rest.flatMap fun g => g.1 ++ g.2) := by
          rw [hscan]
          simp only [List.append_assoc]
        exact scan_group hsplit
      have hafter : scan rules s =
          (front ++ (g.1 ++ g.2)) ++ rest.flatMap fun g => g.1 ++ g.2 := by
        rw [hscan]
        simp only [List.append_assoc]
      have hlater := ih hafter
      rw [List.map_cons, ← hlater, hone, htwo]

theorem Tokenized.splits {e : Expansion} {first : List (Lexeme SymbolType)}
    {rest : List (List (Lexeme SymbolType) × List (Lexeme SymbolType))}
    (h : Tokenized e first rest) : first = scan rules e.first ∧
      rest = (e.rest.map fun piece => (scan rules piece.1, scan rules piece.2)) ∧ Splits e := by
  have hfirst : first = scan rules e.first := by
    rw [← h.first]
    exact (Flex.scan_texts_left covers h.whole).symm
  have hrest := groups_eq h.whole h.rest
  refine ⟨hfirst, hrest, ?_⟩
  rw [Splits, h.whole, hfirst, hrest, List.flatMap_map]
  rfl

theorem tokenized_of_splits {e : Expansion} (h : Splits e) :
    Tokenized e (scan rules e.first)
      (e.rest.map fun piece => (scan rules piece.1, scan rules piece.2)) := by
  refine ⟨?_, Flex.texts_scan covers e.first, ?_⟩
  · rw [h, List.flatMap_map]
    rfl
  · rw [List.forall₂_map_right_iff]
    exact List.forall₂_same.mpr fun piece _ =>
      ⟨Flex.texts_scan covers piece.1, Flex.texts_scan covers piece.2⟩

theorem noninterfering_iff {e₁ e₂ : Expansion} : Noninterfering e₁ e₂ ↔
    Splits e₁ ∧ Splits e₂ ∧ lex e₁.first = lex e₂.first ∧
      List.Forall₂ (fun p q => lex p.2 = lex q.2 ∧ (∃ v, LeeRhs (lex p.1) v) ∧
        ∃ v, LeeRhs (lex q.1) v) e₁.rest e₂.rest := by
  constructor
  · rintro ⟨first₁, rest₁, first₂, rest₂, h₁, h₂, hfirst, hrest⟩
    obtain ⟨rfl, rfl, hs₁⟩ := h₁.splits
    obtain ⟨rfl, rfl, hs₂⟩ := h₂.splits
    rw [List.forall₂_map_left_iff, List.forall₂_map_right_iff] at hrest
    exact ⟨hs₁, hs₂, hfirst, hrest⟩
  · rintro ⟨hs₁, hs₂, hfirst, hrest⟩
    refine ⟨_, _, _, _, tokenized_of_splits hs₁, tokenized_of_splits hs₂, hfirst, ?_⟩
    rw [List.forall₂_map_left_iff, List.forall₂_map_right_iff]
    exact hrest

/-! ### Isolated placeholders -/

/-- The literal at a placeholder, with what its value was rendered to. -/
theorem scan_literal {v : Value} {text : List Char} (hv : bindable v = true)
    (htext : renderLiteral v = .ok text) :
    (∃ c cs, text = c :: cs ∧ literalStart c = true) ∧ lex text = literalTokens v ∧
      ∀ rest, Follows rest → scan rules (text ++ rest) = scan rules text ++ scan rules rest := by
  obtain ⟨text', htext', hscans⟩ := scans_literal v hv
  obtain rfl : text = text' := Except.ok.inj (htext.symm.trans htext')
  obtain ⟨ls, hls, hscan⟩ := hscans.lexemes
  have halone : scan rules text = ls := by
    have h := hscan [] follows_nil
    rwa [List.append_nil, Flex.scan_nil, List.append_nil] at h
  refine ⟨hscans.head, by rw [lex, halone, hls], ?_⟩
  intro rest hrest
  rw [hscan rest hrest, halone]

/-- Whether the values at the placeholders have literal syntax. -/
def PlacesBindable (p : PreparedStatement) (f : Frame) : Prop :=
  ∀ place ∈ f.rest, ∀ v, p.value place.1 = some v → bindable v = true

theorem restText_head {p : PreparedStatement} {places : List (Slot × List Char)}
    {pieces : List (List Char × List Char)}
    (hfilled : List.Forall₂ (fun place piece => piece.2 = place.2 ∧
      ∃ v, p.value place.1 = some v ∧ renderLiteral v = .ok piece.1) places pieces)
    (hbind : ∀ place ∈ places, ∀ v, p.value place.1 = some v → bindable v = true)
    (hne : places ≠ []) : ∃ c cs, restText pieces = c :: cs ∧ literalStart c = true := by
  cases hfilled with
  | nil => exact absurd rfl hne
  | @cons place piece places pieces h _ =>
      obtain ⟨-, v, hv, htext⟩ := h
      obtain ⟨⟨c, cs, hcs, hc⟩, -⟩ := scan_literal (hbind place (by simp) v hv) htext
      exact ⟨c, cs ++ (piece.2 ++ restText pieces), by simp [restText, hcs], hc⟩

theorem isolatedRest_splits {p : PreparedStatement} {places : List (Slot × List Char)}
    {pieces : List (List Char × List Char)}
    (hfilled : List.Forall₂ (fun place piece => piece.2 = place.2 ∧
      ∃ v, p.value place.1 = some v ∧ renderLiteral v = .ok piece.1) places pieces)
    (hbind : ∀ place ∈ places, ∀ v, p.value place.1 = some v → bindable v = true)
    (hisolated : isolatedRest places = true) :
    scan rules (restText pieces) = pieceLexemes pieces := by
  induction hfilled with
  | nil => rfl
  | @cons place piece places pieces h hlater ih =>
      have hbindLater : ∀ place ∈ places, ∀ v, p.value place.1 = some v → bindable v = true :=
        fun q hq => hbind q (List.mem_cons_of_mem _ hq)
      obtain ⟨hpiece, v, hv, htext⟩ := h
      obtain ⟨-, -, hscan⟩ := scan_literal (hbind place (by simp) v hv) htext
      have hwhole : restText (piece :: pieces) = piece.1 ++ (piece.2 ++ restText pieces) := by
        simp [restText]
      have hlexemes : pieceLexemes (piece :: pieces) =
          scan rules piece.1 ++ (scan rules piece.2 ++ pieceLexemes pieces) := by
        simp [pieceLexemes]
      rw [hwhole, hlexemes]
      cases hcase : places with
      | nil =>
          subst hcase
          cases hlater
          have hclear : clear true piece.2 = true := by
            rw [hpiece]
            exact hisolated
          have hfollows : Follows (piece.2 ++ []) := follows_of_clear hclear fun _ => rfl
          rw [show restText [] = [] from rfl, hscan _ hfollows, List.append_nil]
          simp [pieceLexemes]
      | cons next others =>
          rw [hcase, isolatedRest, Bool.and_eq_true, Bool.and_eq_true, ← hpiece] at hisolated
          obtain ⟨⟨hclear, hshut⟩, hrest⟩ := hisolated
          obtain ⟨c, cs, hhead, hc⟩ := restText_head hlater hbindLater (by simp [hcase])
          have hclosed := ((shut_iff piece.2).mp hshut).closed hc cs
          rw [← hhead] at hclosed
          rw [hscan _ (follows_of_clear hclear fun h => by cases h),
            (Flex.scan_append_iff covers).mpr hclosed, ih hbindLater (by rw [hcase]; exact hrest)]

theorem isolated_splits {p : PreparedStatement} {f : Frame} {e : Expansion}
    (hfilled : f.FilledBy p e) (hbind : PlacesBindable p f) (hisolated : f.isolated = true) :
    Splits e := by
  rw [Frame.isolated, Bool.or_eq_true, Bool.and_eq_true, List.isEmpty_iff] at hisolated
  rw [Splits, Expansion.text]
  change scan rules (e.first ++ restText e.rest) = _
  by_cases hne : f.rest = []
  · have hpieces : e.rest = [] := List.forall₂_nil_left_iff.mp (hne ▸ hfilled.rest)
    simp [hpieces, restText, pieceLexemes]
  · obtain ⟨hshut, hrest⟩ := hisolated.resolve_left hne
    obtain ⟨c, cs, hhead, hc⟩ := restText_head hfilled.rest hbind hne
    have hclosed := ((shut_iff f.first).mp hshut).closed hc cs
    rw [← hhead, ← hfilled.first] at hclosed
    rw [(Flex.scan_append_iff covers).mpr hclosed,
      isolatedRest_splits hfilled.rest hbind hrest]

/-- No value at a placeholder has a string of the shape of a timestamp. -/
def PlacesTimeless (p : PreparedStatement) (f : Frame) : Prop :=
  ∀ place ∈ f.rest, ∀ v, p.value place.1 = some v → NoTimestamps (strings v)

/-- At the placeholders of a frame two expansions of it have complete literals
exactly when no timestamp is among the strings of their values. -/
theorem places_leeRhs_iff {p q : PreparedStatement} {places : List (Slot × List Char)}
    {pieces₁ pieces₂ : List (List Char × List Char)}
    (h₁ : List.Forall₂ (fun place piece => piece.2 = place.2 ∧
      ∃ v, p.value place.1 = some v ∧ renderLiteral v = .ok piece.1) places pieces₁)
    (h₂ : List.Forall₂ (fun place piece => piece.2 = place.2 ∧
      ∃ v, q.value place.1 = some v ∧ renderLiteral v = .ok piece.1) places pieces₂)
    (hp : ∀ place ∈ places, ∀ v, p.value place.1 = some v → bindable v = true)
    (hq : ∀ place ∈ places, ∀ v, q.value place.1 = some v → bindable v = true) :
    List.Forall₂ (fun x y => lex x.2 = lex y.2 ∧ (∃ v, LeeRhs (lex x.1) v) ∧
        ∃ v, LeeRhs (lex y.1) v) pieces₁ pieces₂ ↔
      (∀ place ∈ places, ∀ v, p.value place.1 = some v → NoTimestamps (strings v)) ∧
      ∀ place ∈ places, ∀ v, q.value place.1 = some v → NoTimestamps (strings v) := by
  induction h₁ generalizing pieces₂ with
  | nil =>
      cases h₂
      simp
  | @cons place x places xs hx _ ih =>
      cases h₂ with
      | @cons _ y _ ys hy hys =>
          obtain ⟨hxtext, v, hv, hvtext⟩ := hx
          obtain ⟨hytext, w, hw, hwtext⟩ := hy
          have hvb := hp place (by simp) v hv
          have hwb := hq place (by simp) w hw
          rw [List.forall₂_cons, ih hys (fun s hs => hp s (List.mem_cons_of_mem _ hs))
            (fun s hs => hq s (List.mem_cons_of_mem _ hs)), (scan_literal hvb hvtext).2.1,
            (scan_literal hwb hwtext).2.1, literalTokens_leeRhs_iff hvb,
            literalTokens_leeRhs_iff hwb, hxtext, hytext]
          simp only [List.forall_mem_cons, hv, hw, Option.some.injEq, forall_eq', true_and]
          tauto

/-! ### Whether it succeeds does not depend on the values -/

/-- Where one binding of the placeholders expands, every other does whose
values have literal syntax. -/
theorem SamePlaceholders.expandPlaces_ok {p q : PreparedStatement} (h : SamePlaceholders p q)
    {e : Expansion} (hp : p.expandPlaces = .ok e) (hq : ∀ v ∈ q.bound, bindable v = true)
    (herror : q.bindError = none) : ∃ e', q.expandPlaces = .ok e' := by
  have hexpand : p.expand = .ok e.text := by rw [PreparedStatement.expand, hp]; rfl
  have hdistinct : q.names.Nodup := h.named.nodup_iff.mpr (nodup_of_expand hexpand)
  obtain ⟨-, hliterals, hle, hused, -⟩ := expand_ok_iff.mp hexpand
  have hrender : ∀ {slot v}, q.value slot = some v → ∃ text, renderLiteral v = .ok text := by
    intro slot v hv
    obtain ⟨text, htext, -⟩ := scans_literal v (hq v (value_mem_bound hv))
    exact ⟨text, htext⟩
  obtain ⟨text, htext⟩ : ∃ text, q.expand = .ok text := by
    refine ⟨_, expand_ok_iff.mpr ⟨herror, fun m hm => ?_, ?_, fun k hk => ?_, rfl⟩⟩
    · rw [h.sql] at hm
      obtain ⟨literal, hliteral⟩ := hliterals m hm
      cases m with
      | positional k =>
          have hk : k < q.positional.length := by
            rw [h.positional]
            by_contra hk
            exact literalFor_missing hk hliteral
          have hv : q.value (.positional k) = some q.positional[k] := List.getElem?_eq_getElem hk
          obtain ⟨text, htext⟩ := hrender hv
          refine ⟨text, ?_⟩
          rw [PreparedStatement.literalFor, List.getElem?_eq_getElem hk]
          exact htext
      | named name =>
          rw [PreparedStatement.literalFor]
          cases hindex : q.named.findIdx? fun entry => decide (entry.1 = name) with
          | none => exact ⟨_, rfl⟩
          | some k => exact hrender (value_of_findIdx hindex)
    · rwa [h.sql, h.positional]
    · have hget : q.named[k]? = some (q.named[k].1, q.named[k].2) := List.getElem?_eq_getElem hk
      refine ⟨q.named[k].1, ?_, findIdx_of_nodup hdistinct hget⟩
      -- the other statement has the name too, and had to use it
      have hmem : q.named[k].1 ∈ p.names :=
        h.named.mem_iff.mp (List.mem_map_of_mem (List.getElem_mem hk))
      obtain ⟨entry, hentry, hname⟩ := List.mem_map.mp hmem
      obtain ⟨j, hj, rfl⟩ := List.mem_iff_getElem.mp hentry
      obtain ⟨name, hmark, hindex⟩ := hused j hj
      obtain ⟨hlt, hsame, -⟩ := List.findIdx?_eq_some_iff_getElem.mp hindex
      have hsame : p.named[j].1 = name := by simpa using hsame
      rwa [h.sql, ← hname, hsame]
  obtain ⟨e', he', -⟩ := map_eq_ok htext
  exact ⟨e', he'⟩

/-! ### Joined placeholders -/

/-- Every parameter bound to one value. -/
def PreparedStatement.rebind (p : PreparedStatement) (v : Value) : PreparedStatement :=
  { p with
    positional := p.positional.map fun _ => v
    named := p.named.map fun entry => (entry.1, v)
    bindError := none }

theorem rebind_same (p : PreparedStatement) (v : Value) : SamePlaceholders p (p.rebind v) := by
  refine ⟨rfl, by simp [PreparedStatement.rebind], List.Perm.of_eq ?_⟩
  simp [PreparedStatement.names, PreparedStatement.rebind]

theorem mem_rebind_bound {p : PreparedStatement} {v w : Value} (h : w ∈ (p.rebind v).bound) :
    w = v := by
  simp only [PreparedStatement.bound, PreparedStatement.rebind, List.mem_append, List.mem_map] at h
  rcases h with ⟨-, -, rfl⟩ | ⟨-, ⟨-, -, rfl⟩, rfl⟩
  · rfl
  · rfl

theorem rebind_value {p : PreparedStatement} {v w : Value} {slot : Slot}
    (h : (p.rebind v).value slot = some w) : w = v :=
  mem_rebind_bound (value_mem_bound h)

/-- The pieces of a frame with one literal everywhere. -/
def fillAll (text : List Char) (places : List (Slot × List Char)) :
    List (List Char × List Char) :=
  places.map fun place => (text, place.2)

theorem rebind_pieces {p : PreparedStatement} {v : Value} {text : List Char}
    (htext : renderLiteral v = .ok text) {places : List (Slot × List Char)}
    {pieces : List (List Char × List Char)}
    (h : List.Forall₂ (fun place piece => piece.2 = place.2 ∧
      ∃ w, (p.rebind v).value place.1 = some w ∧ renderLiteral w = .ok piece.1) places pieces) :
    pieces = fillAll text places := by
  induction h with
  | nil => rfl
  | @cons place piece places pieces h _ ih =>
      obtain ⟨hpiece, w, hw, hwtext⟩ := h
      rw [rebind_value hw, htext] at hwtext
      have hcons : fillAll text (place :: places) = (text, place.2) :: fillAll text places := rfl
      rw [ih, hcons, ← hpiece, Except.ok.inj hwtext]

/-- Where a first part of a text is scanned separately, the rest is too. -/
theorem splits_tail {a b : List Char} {ls : List (Lexeme SymbolType)}
    (h : scan rules (a ++ b) = scan rules a ++ ls) (hls : texts ls = b) :
    scan rules b = ls ∧ Closed rules a b := by
  have hb : scan rules b = ls := by
    rw [← hls]
    exact Flex.scan_texts_right covers h
  exact ⟨hb, (Flex.scan_append_iff covers).mp (by rw [h, hb])⟩

theorem splits_cons {piece : List Char × List Char} {pieces : List (List Char × List Char)}
    (h : scan rules (restText (piece :: pieces)) = pieceLexemes (piece :: pieces)) :
    Closed rules piece.1 (piece.2 ++ restText pieces) ∧
      Closed rules piece.2 (restText pieces) ∧
      scan rules (restText pieces) = pieceLexemes pieces := by
  have hwhole : restText (piece :: pieces) = piece.1 ++ (piece.2 ++ restText pieces) := by
    simp [restText]
  have hlexemes : pieceLexemes (piece :: pieces) =
      scan rules piece.1 ++ (scan rules piece.2 ++ pieceLexemes pieces) := by
    simp [pieceLexemes]
  rw [hwhole, hlexemes] at h
  have htexts : texts (scan rules piece.2 ++ pieceLexemes pieces) =
      piece.2 ++ restText pieces := by
    rw [Flex.texts_append, Flex.texts_scan covers, texts_pieceLexemes]
  obtain ⟨hrest, hfirst⟩ := splits_tail h htexts
  obtain ⟨hlater, hsecond⟩ := splits_tail hrest (texts_pieceLexemes pieces)
  exact ⟨hfirst, hsecond, hlater⟩

theorem restText_fillAll (text : List Char) (place : Slot × List Char)
    (places : List (Slot × List Char)) :
    ∃ w, restText (fillAll text (place :: places)) = text ++ w :=
  ⟨place.2 ++ restText (fillAll text places), by simp [restText, fillAll]⟩

theorem splits_fillAll {text : List Char} {place : Slot × List Char}
    {places : List (Slot × List Char)}
    (h : scan rules (restText (fillAll text (place :: places))) =
      pieceLexemes (fillAll text (place :: places))) :
    Closed rules text (place.2 ++ restText (fillAll text places)) ∧
      Closed rules place.2 (restText (fillAll text places)) ∧
      scan rules (restText (fillAll text places)) = pieceLexemes (fillAll text places) := by
  have hcons : fillAll text (place :: places) = (text, place.2) :: fillAll text places := rfl
  rw [hcons] at h
  exact splits_cons h

theorem isolatedRest_of_splits {places : List (Slot × List Char)}
    (hfive : scan rules (restText (fillAll ['5'] places)) = pieceLexemes (fillAll ['5'] places))
    (hstring : scan rules (restText (fillAll ['"', '"'] places)) =
      pieceLexemes (fillAll ['"', '"'] places)) : isolatedRest places = true := by
  induction places with
  | nil => rfl
  | cons place places ih =>
      obtain ⟨hfive₁, hfive₂, hfive₃⟩ := splits_fillAll hfive
      obtain ⟨hstring₁, hstring₂, hstring₃⟩ := splits_fillAll hstring
      cases places with
      | nil =>
          have hclear : clear true place.2 = true :=
            clear_of_closed hfive₁ hstring₁ (fun h => by cases h) (fun h => by cases h)
          exact hclear
      | cons next places =>
          obtain ⟨y, hy⟩ := restText_fillAll ['5'] next places
          obtain ⟨z, hz⟩ := restText_fillAll ['"', '"'] next places
          have hclear : clear false place.2 = true :=
            clear_of_closed hfive₁ hstring₁ (fun _ => ⟨y, hy⟩) (fun _ => by rw [hz]; simp)
          have hshut : Shut place.2 := by
            refine shut_of_closed (y := y) (z := z) ?_ ?_
            · rwa [hy] at hfive₂
            · rwa [hz] at hstring₂
          rw [isolatedRest, hclear, (shut_iff place.2).mpr hshut, ih hfive₃ hstring₃]
          rfl

theorem isolated_of_splits {f : Frame}
    (hfive : Splits ⟨f.first, fillAll ['5'] f.rest⟩)
    (hstring : Splits ⟨f.first, fillAll ['"', '"'] f.rest⟩) : f.isolated = true := by
  obtain ⟨hfive₁, hfive₂⟩ := splits_tail (b := restText (fillAll ['5'] f.rest)) hfive
    (texts_pieceLexemes _)
  obtain ⟨hstring₁, hstring₂⟩ := splits_tail (b := restText (fillAll ['"', '"'] f.rest)) hstring
    (texts_pieceLexemes _)
  rw [Frame.isolated, Bool.or_eq_true, Bool.and_eq_true, List.isEmpty_iff]
  cases hrest : f.rest with
  | nil => exact .inl rfl
  | cons place places =>
      rw [hrest] at hfive₁ hfive₂ hstring₁ hstring₂
      obtain ⟨y, hy⟩ := restText_fillAll ['5'] place places
      obtain ⟨z, hz⟩ := restText_fillAll ['"', '"'] place places
      refine .inr ⟨(shut_iff f.first).mpr (shut_of_closed (y := y) (z := z) ?_ ?_),
        isolatedRest_of_splits hfive₁ hstring₁⟩
      · rwa [hy] at hfive₂
      · rwa [hz] at hstring₂

/-- A statement with one value bound everywhere, expanded. -/
theorem rebind_expands {p : PreparedStatement} {e : Expansion} (hp : p.expandPlaces = .ok e)
    {v : Value} (hv : bindable v = true) {text : List Char} (htext : renderLiteral v = .ok text) :
    (p.rebind v).expandPlaces = .ok ⟨p.frame.first, fillAll text p.frame.rest⟩ := by
  have hsame := rebind_same p v
  have hbound : ∀ w ∈ (p.rebind v).bound, bindable w = true := by
    intro w hw
    rw [mem_rebind_bound hw]
    exact hv
  obtain ⟨e', he'⟩ := hsame.expandPlaces_ok hp hbound rfl
  have hfilled := expandPlaces_filled he'
  rw [hsame.frame_eq] at hfilled
  have hpieces := rebind_pieces htext hfilled.rest
  rw [he', ← hfilled.first, ← hpieces]

/-- Noninterference, exactly. In a template whose placeholders are isolated, two
bindings of number lexemes, strings and collections of them are kept apart from
the template's tokens, and are complete literals unless a string among them is
taken for a timestamp. In any other template some binding without such a string
is not. -/
theorem expand_noninterference (p : PreparedStatement) (e : Expansion)
    (hp : p.expandPlaces = .ok e) :
    (p.frame.isolated = true → ∀ q₁ q₂ e₁ e₂, SamePlaceholders p q₁ → SamePlaceholders p q₂ →
      (∀ v ∈ q₁.bound, bindable v = true) → (∀ v ∈ q₂.bound, bindable v = true) →
      q₁.expandPlaces = .ok e₁ → q₂.expandPlaces = .ok e₂ →
      (Noninterfering e₁ e₂ ↔ PlacesTimeless q₁ p.frame ∧ PlacesTimeless q₂ p.frame)) ∧
    (p.frame.isolated = false → ∃ q e', SamePlaceholders p q ∧
      (∀ v ∈ q.bound, bindable v = true ∧ NoTimestamps (strings v)) ∧
      q.expandPlaces = .ok e' ∧ ¬Noninterfering e' e') := by
  constructor
  · intro hisolated q₁ q₂ e₁ e₂ hsame₁ hsame₂ hbound₁ hbound₂ he₁ he₂
    have hfilled₁ := expandPlaces_filled he₁
    have hfilled₂ := expandPlaces_filled he₂
    rw [hsame₁.frame_eq] at hfilled₁
    rw [hsame₂.frame_eq] at hfilled₂
    have hplaces₁ : PlacesBindable q₁ p.frame := fun _ _ v hv => hbound₁ v (value_mem_bound hv)
    have hplaces₂ : PlacesBindable q₂ p.frame := fun _ _ v hv => hbound₂ v (value_mem_bound hv)
    rw [noninterfering_iff, hfilled₁.first, hfilled₂.first,
      places_leeRhs_iff hfilled₁.rest hfilled₂.rest hplaces₁ hplaces₂]
    have hsplits₁ := isolated_splits hfilled₁ hplaces₁ hisolated
    have hsplits₂ := isolated_splits hfilled₂ hplaces₂ hisolated
    simp only [hsplits₁, hsplits₂, true_and]
    rfl
  · intro hjoined
    by_contra hnone
    push Not at hnone
    -- the number 5 everywhere, then the empty string everywhere
    have hsplits : ∀ v text, bindable v = true → NoTimestamps (strings v) →
        renderLiteral v = .ok text → Splits ⟨p.frame.first, fillAll text p.frame.rest⟩ := by
      intro v text hv ht htext
      have hexpands := rebind_expands hp hv htext
      have hkept := hnone (p.rebind v) _ (rebind_same p v)
        (fun w hw => by rw [mem_rebind_bound hw]; exact ⟨hv, ht⟩) hexpands
      exact (noninterfering_iff.mp hkept).1
    have hfive := hsplits (.N "5") ['5'] (by decide) (by simp [NoTimestamps, strings]) rfl
    have hstring := hsplits (.S "") ['"', '"'] rfl
      (by simp [NoTimestamps, strings]; decide) rfl
    rw [isolated_of_splits hfive hstring] at hjoined
    cases hjoined

def lookupBy (a : Value) (b : Value) : PreparedStatement :=
  ((PreparedStatement.new "select * from t where a = ? and b = :x;").bindIndex 1 a).bindName "x" b

/-- Whatever the strings contain, they stay in their places. -/
theorem lookupBy_noninterfering : ∃ e₁ e₂,
    (lookupBy (.S "a\"; quit; --") (.N "-1.5E3")).expandPlaces = .ok e₁ ∧
    (lookupBy (.L [.S "?", .NUL]) (.S "\n")).expandPlaces = .ok e₂ ∧ Noninterfering e₁ e₂ := by
  refine ⟨_, _, rfl, rfl, ?_⟩
  refine ((expand_noninterference (lookupBy (.N "1") (.N "2")) _ rfl).1 (by decide +kernel)
    (lookupBy (.S "a\"; quit; --") (.N "-1.5E3")) (lookupBy (.L [.S "?", .NUL]) (.S "\n"))
    _ _ ⟨rfl, rfl, .rfl⟩ ⟨rfl, rfl, .rfl⟩ (by decide) (by decide) rfl rfl).mpr ⟨?_, ?_⟩
  · have hbound : ∀ v ∈ (lookupBy (.S "a\"; quit; --") (.N "-1.5E3")).bound,
        NoTimestamps (strings v) := by
      unfold NoTimestamps
      decide
    exact fun _ _ v hv => hbound v (value_mem_bound hv)
  · have hbound : ∀ v ∈ (lookupBy (.L [.S "?", .NUL]) (.S "\n")).bound,
        NoTimestamps (strings v) := by
      unfold NoTimestamps
      decide
    exact fun _ _ v hv => hbound v (value_mem_bound hv)

def commented (s : String) : PreparedStatement :=
  (PreparedStatement.new "help; -- ?").bindIndex 1 (.S s)

/-- A placeholder in a comment: a bound string that has a new line ends the
comment, and what it says next is a statement. -/
theorem commented_interferes : ∃ e₁ e₂, (commented "note").expandPlaces = .ok e₁ ∧
    (commented "\nquit;").expandPlaces = .ok e₂ ∧
    (lex e₁.text).any (·.kind = .kind .kQuit) = false ∧
    (lex e₂.text).any (·.kind = .kind .kQuit) = true ∧ ¬Noninterfering e₁ e₂ := by
  refine ⟨_, _, rfl, rfl, by decide +kernel, by decide +kernel, ?_⟩
  intro h
  have hsplits := (noninterfering_iff.mp h).1
  unfold Splits at hsplits
  revert hsplits
  decide +kernel

end DdbShell
