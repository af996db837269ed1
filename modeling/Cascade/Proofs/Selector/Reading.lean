import Cascade.Proofs.Selector.Grammar

/-!
# Reading is the grammar

The scanners of groups and of lists are taken through the grammar, each in both directions:
what a scanner accepts has a derivation, and what has a derivation the scanner accepts, with
the same selector.  A scanner takes the longest compound it can, so the way back needs to
know where a compound ends: before a blank, before a `>`, or with the text (`Stops`).

## Main definitions

* `Selector.Stops` — no compound goes on into this text.
* `Selector.Lexed` — a text with its tokens, and the blanks between them.

## Main results

* `Selector.lexed_tokens` — the tokens of a text are spread over all of it.
* `Selector.group?_iff`, `Selector.parse?_iff` — the readers accept the grammar.
* `Selector.parse_grammar` — reading a text, for every text.
-/

namespace Cascade
namespace Selector

variable {cs rest w bs as : List Char} {t ancestor : Selector} {ts : List Selector}
  {toks : List Token}

/-! ### Blanks -/

theorem Blanks.nil : Blanks [] := by
  intro c hc
  cases hc

theorem Blanks.cons {c : Char} (hc : isBlank c = true) (h : Blanks cs) : Blanks (c :: cs) := by
  intro d hd
  rcases List.mem_cons.mp hd with rfl | hd
  · exact (isBlank_iff d).mp hc
  · exact h d hd

/-! ### The scanner of groups -/

/-- A text that the scanner takes for one compound. -/
def Word (w : List Char) : Prop := w ≠ [] ∧ ∀ c ∈ w, isBlank c = false ∧ c ≠ '>'

theorem Compound.word (h : Compound cs t) : Word cs :=
  ⟨h.ne_nil, fun c hc => ⟨(h.inner c hc).1, (h.inner c hc).2.1⟩⟩

/-- No compound goes on into this text. -/
def Stops (rest : List Char) : Prop := ∀ c cs, rest = c :: cs → isBlank c = true ∨ c = '>'

theorem Stops.nil : Stops [] := by
  intro c cs h
  cases h

/-- Where a compound stops, there are blanks in front of the next one. -/
theorem Word.blanks_ne_nil (hw : Word w) (hr : Stops (bs ++ w ++ rest)) : bs ≠ [] := by
  rintro rfl
  obtain ⟨c, w, rfl⟩ := List.exists_cons_of_ne_nil hw.1
  obtain ⟨hblank, hchild⟩ := hw.2 c List.mem_cons_self
  rcases hr c (w ++ rest) rfl with h | h
  · rw [hblank] at h
    cases h
  · exact hchild h

theorem Blanks.stops (h : Blanks bs) (hr : Stops rest) : Stops (bs ++ rest) := by
  -- without blanks the text stops where the rest does
  cases bs with
  | nil => exact hr
  | cons b bs =>
    intro c cs heq
    cases heq
    exact .inl ((isBlank_iff b).mpr (h b List.mem_cons_self))

theorem Separator.stops {direct : Bool} (h : Separator bs direct) (rest : List Char) :
    Stops (bs ++ rest) := by
  cases h with
  | @gap _ hne hb =>
    cases bs with
    | nil => exact absurd rfl hne
    | cons b bs =>
      intro c cs heq
      cases heq
      exact .inl ((isBlank_iff b).mpr (hb b List.mem_cons_self))
  | @child bs bs' hb hb' =>
    rw [List.append_assoc]
    refine hb.stops ?_
    intro c cs heq
    cases heq
    exact .inr rfl

theorem tokens_blanks (h : Blanks bs) (cs : List Char) : tokens (bs ++ cs) = tokens cs := by
  induction bs with
  | nil => rfl
  | cons b bs ih =>
    have hb : isBlank b = true := (isBlank_iff b).mpr (h b List.mem_cons_self)
    have ih := ih fun c hc => h c (List.mem_cons_of_mem b hc)
    rw [List.cons_append, tokens, tokensFrom, if_pos hb]
    exact ih

theorem tokens_child (cs : List Char) : tokens ('>' :: cs) = .child :: tokens cs := rfl

/-- The characters of a compound are collected, the last one in front. -/
theorem tokensFrom_append (hw : ∀ c ∈ w, isBlank c = false ∧ c ≠ '>')
    (collected rest : List Char) :
    tokensFrom collected (w ++ rest) = tokensFrom (w.reverse ++ collected) rest := by
  induction w generalizing collected with
  | nil => rfl
  | cons c w ih =>
    obtain ⟨hblank, hchild⟩ := hw c List.mem_cons_self
    rw [List.cons_append, tokensFrom, if_neg (Bool.eq_false_iff.mp hblank), if_neg hchild,
      ih (fun d hd => hw d (List.mem_cons_of_mem c hd)), List.reverse_cons, List.append_assoc,
      List.singleton_append]

/-- A compound that ends where the text stops is one token. -/
theorem tokens_word (hw : Word w) (hr : Stops rest) :
    tokens (w ++ rest) = .compound w :: tokens rest := by
  have hflush : ∀ ts, flush w.reverse ts = .compound w :: ts := by
    intro ts
    have hne : ¬ w.reverse.isEmpty = true := by simpa using hw.1
    rw [flush, if_neg hne, List.reverse_reverse]
  rw [tokens, tokensFrom_append hw.2, List.append_nil]
  cases rest with
  | nil => exact hflush []
  | cons c rest =>
    -- a blank and a `>` both end the compound, and only the `>` is a token itself
    rw [tokens, tokensFrom, tokensFrom]
    rcases hr c rest rfl with hblank | rfl
    · rw [if_pos hblank, if_pos hblank, hflush]
      rfl
    · have hblank : ¬ isBlank '>' = true := by decide
      rw [if_neg hblank, if_pos rfl, if_neg hblank, if_pos rfl, hflush]
      rfl

/-- A text with its tokens: each compound ends where the rest of the text stops. -/
inductive Lexed : List Char → List Token → Prop where
  | nil {bs : List Char} (hb : Blanks bs) : Lexed bs []
  | compound {bs w rest : List Char} {toks : List Token} (hb : Blanks bs) (hw : Word w)
    (hr : Stops rest) (h : Lexed rest toks) : Lexed (bs ++ w ++ rest) (.compound w :: toks)
  | child {bs rest : List Char} {toks : List Token} (hb : Blanks bs) (h : Lexed rest toks) :
    Lexed (bs ++ '>' :: rest) (.child :: toks)

theorem Lexed.blank {c : Char} (hc : isBlank c = true) (h : Lexed cs toks) :
    Lexed (c :: cs) toks := by
  cases h with
  | nil hb => exact .nil (hb.cons hc)
  | compound hb hw hr h => exact .compound (hb.cons hc) hw hr h
  | child hb h => exact .child (hb.cons hc) h

/-- A compound that has been collected is put in front of what the rest is spread over. -/
theorem Lexed.flush {collected : List Char}
    (hw : ∀ c ∈ collected, isBlank c = false ∧ c ≠ '>') (hr : Stops rest)
    (h : Lexed rest toks) : Lexed (collected.reverse ++ rest) (flush collected toks) := by
  cases collected with
  | nil => exact h
  | cons c collected =>
    have hword : Word (c :: collected).reverse := by
      refine ⟨List.reverse_ne_nil_iff.mpr (List.cons_ne_nil c collected), ?_⟩
      intro d hd
      exact hw d (List.mem_reverse.mp hd)
    exact .compound .nil hword hr h

theorem lexed_tokensFrom (cs collected : List Char)
    (hw : ∀ c ∈ collected, isBlank c = false ∧ c ≠ '>') :
    Lexed (collected.reverse ++ cs) (tokensFrom collected cs) := by
  induction cs generalizing collected with
  | nil => exact .flush hw .nil (.nil .nil)
  | cons c cs ih =>
    -- after a blank or a `>` nothing is collected, and else the character is
    have hrest : Lexed cs (tokensFrom [] cs) := ih [] fun d hd => by cases hd
    rw [tokensFrom]
    by_cases hblank : isBlank c = true
    · rw [if_pos hblank]
      refine .flush hw ?_ (hrest.blank hblank)
      intro d ds heq
      cases heq
      exact .inl hblank
    · rw [if_neg hblank]
      by_cases hchild : c = '>'
      · rw [if_pos hchild]
        refine .flush hw ?_ ?_
        · intro d ds heq
          cases heq
          exact .inr hchild
        · rw [hchild]
          exact .child .nil hrest
      · rw [if_neg hchild]
        have hmore := ih (c :: collected) fun d hd => by
          rcases List.mem_cons.mp hd with rfl | hd
          · exact ⟨Bool.eq_false_iff.mpr hblank, hchild⟩
          · exact hw d hd
        rwa [List.reverse_cons, List.append_assoc, List.singleton_append] at hmore

/-- **The tokens of a group are spread over all of its text,** with nothing but blanks
between them. -/
theorem lexed_tokens (cs : List Char) : Lexed cs (tokens cs) :=
  lexed_tokensFrom cs [] fun d hd => by cases hd

/-! ### What the scanner of groups accepts -/

/-- After a first part of a group, the rest adds compounds and ends in blanks. -/
theorem chain_of_relations? (ha : Chain as ancestor) (hr : Stops rest) (hl : Lexed rest toks)
    (h : relations? ancestor toks = some t) :
    ∃ cs bs, Chain cs t ∧ Blanks bs ∧ as ++ rest = cs ++ bs := by
  induction ancestor, toks using relations?.induct generalizing as rest with
  | case1 ancestor =>
    cases h
    cases hl with
    | nil hb => exact ⟨as, rest, ha, hb, rfl⟩
  | case2 ancestor w toks ih =>
    cases hl with
    | @compound bs _ rest' _ hb hw hr' hl =>
      rw [relations?] at h
      obtain ⟨base, hbase, h⟩ := Option.bind_eq_some_iff.mp h
      -- two compounds next to each other would have been one, so there are blanks
      have hne : bs ≠ [] := hw.blanks_ne_nil hr
      have hchain := Chain.within ha (.gap hne hb) (compound?_iff.mp hbase)
      obtain ⟨cs, bs', hcs, hbs', heq⟩ := ih base hchain hr' hl h
      exact ⟨cs, bs', hcs, hbs', by simpa only [List.append_assoc] using heq⟩
  | case3 ancestor w toks ih =>
    cases hl with
    | @child bs _ _ hb hl =>
      -- after a `>` there is a compound, for any other token is refused
      cases hl with
      | @compound bs' _ rest' _ hb' hw hr' hl =>
        rw [relations?] at h
        obtain ⟨base, hbase, h⟩ := Option.bind_eq_some_iff.mp h
        have hchain := Chain.within ha (.child hb hb') (compound?_iff.mp hbase)
        obtain ⟨cs, bs'', hcs, hbs'', heq⟩ := ih base hchain hr' hl h
        exact ⟨cs, bs'', hcs, hbs'',
          by simpa only [List.append_assoc, List.cons_append] using heq⟩
  -- all that is left is a `>` with no compound after it, and that is refused
  | case4 ancestor toks hne =>
    rw [relations?.eq_4 _ _ hne] at h
    cases h

theorem groupText_of_group? (h : group? cs = some t) : GroupText cs t := by
  have hl := lexed_tokens cs
  unfold group? at h
  split at h
  · next w toks heq =>
    rw [heq] at hl
    obtain ⟨first, hfirst, h⟩ := Option.bind_eq_some_iff.mp h
    cases hl with
    | @compound bs _ rest _ hb hw hr hl =>
      have hchain := Chain.compound (compound?_iff.mp hfirst)
      obtain ⟨cs', bs', hcs', hbs', heq'⟩ := chain_of_relations? hchain hr hl h
      refine ⟨bs, cs', bs', hb, hcs', hbs', ?_⟩
      rw [List.append_assoc, heq', List.append_assoc]
  · cases h

/-- What is in a group is read, token by token, to the term that the group dictates. -/
theorem Chain.read (h : Chain cs t) (hr : Stops rest) :
    ∃ w toks, tokens (cs ++ rest) = .compound w :: (toks ++ tokens rest) ∧
      ∀ more, (compound? w).bind (fun first => relations? first (toks ++ more)) =
        relations? t more := by
  induction h generalizing rest with
  | @compound cs t hc =>
    refine ⟨cs, [], tokens_word hc.word hr, ?_⟩
    intro more
    rw [compound?_iff.mpr hc]
    rfl
  | @within as sep cs ancestor base direct _ hs hc ih =>
    -- the first part ends where the separator starts, whatever comes after it
    obtain ⟨w, toks, htoks, hread⟩ := ih (hs.stops (cs ++ rest))
    have hbase : compound? cs = some base := compound?_iff.mpr hc
    have hword := tokens_word hc.word hr
    cases hs with
    | gap _ hb =>
      refine ⟨w, toks ++ [.compound cs], ?_, ?_⟩
      · rw [List.append_assoc, List.append_assoc, htoks, tokens_blanks hb, hword,
          List.append_assoc, List.singleton_append]
      · intro more
        rw [List.append_assoc, hread, List.singleton_append, relations?, hbase]
        rfl
    | child hb hb' =>
      refine ⟨w, toks ++ [.child, .compound cs], ?_, ?_⟩
      · rw [List.append_assoc, List.append_assoc, htoks, List.append_assoc, tokens_blanks hb,
          List.cons_append, tokens_child, tokens_blanks hb', hword, List.append_assoc]
        rfl
      · intro more
        rw [List.append_assoc, hread, List.cons_append, List.singleton_append, relations?, hbase]
        rfl

theorem GroupText.read (h : GroupText cs t) : group? cs = some t := by
  obtain ⟨bs, cs', bs', hb, hchain, hb', rfl⟩ := h
  have hstops : Stops bs' := by
    have := hb'.stops Stops.nil
    rwa [List.append_nil] at this
  have hend : tokens bs' = [] := by
    have := tokens_blanks hb' []
    rwa [List.append_nil] at this
  obtain ⟨w, toks, htoks, hread⟩ := hchain.read hstops
  have hread := hread []
  rw [List.append_nil] at hread
  rw [group?, List.append_assoc, tokens_blanks hb, htoks, hend, List.append_nil]
  exact hread

/-- **The reader of groups accepts the groups,** and gives each its term. -/
theorem group?_iff : group? cs = some t ↔ GroupText cs t :=
  ⟨groupText_of_group?, GroupText.read⟩

/-! ### Lists of groups -/

theorem splitCommas_eq (cs : List Char) : splitCommas cs = cs.splitOn ',' := by
  induction cs with
  | nil => rfl
  | cons c cs ih =>
    have hstep : (c :: cs).splitOn ',' =
        if c = ',' then [] :: cs.splitOn ',' else (cs.splitOn ',').modifyHead (List.cons c) := by
      show (c :: cs).splitOnP (· == ',') = _
      rw [List.splitOnP_cons_eq_if_modifyHead]
      simp only [beq_iff_eq]
      rfl
    rw [splitCommas, ih, hstep]
    cases hsplit : cs.splitOn ',' with
    | nil => exact absurd hsplit (List.splitOnP_ne_nil _ cs)
    | cons g gs => rfl

/-- Groups are parted again where they were put together. -/
theorem splitOn_intercalate_groups {gs : List (List Char)} (h : List.Forall₂ GroupText gs ts)
    (hne : gs ≠ []) : ([','].intercalate gs).splitOn ',' = gs := by
  refine List.splitOn_intercalate ',' ?_ hne
  clear hne
  induction h with
  | nil =>
    intro g hg
    cases hg
  | cons hg _ ih =>
    intro g' hg'
    rcases List.mem_cons.mp hg' with rfl | hg'
    · exact hg.comma_notMem
    · exact ih g' hg'

/-- All groups are read if each is. -/
theorem mapM_group?_iff {gs : List (List Char)} :
    gs.mapM group? = some ts ↔ List.Forall₂ GroupText gs ts := by
  induction gs generalizing ts with
  | nil =>
    constructor
    · intro h
      cases h
      exact .nil
    · intro h
      cases h
      rfl
  | cons g gs ih =>
    rw [List.mapM_cons]
    constructor
    · intro h
      obtain ⟨t, ht, h⟩ := Option.bind_eq_some_iff.mp h
      obtain ⟨ts, hts, h⟩ := Option.bind_eq_some_iff.mp h
      cases h
      exact .cons (group?_iff.mp ht) (ih.mp hts)
    · intro h
      cases h with
      | cons hg hgs =>
        rw [group?_iff.mpr hg, ih.mpr hgs]
        rfl

/-- **The reader accepts the grammar,** and gives each text the selector it stands for. -/
theorem parse?_iff : parse? cs = some t ↔ Denotes cs t := by
  rw [parse?, splitCommas_eq]
  constructor
  · intro h
    obtain ⟨ts, hts, rfl⟩ := Option.map_eq_some_iff.mp h
    have hgs := mapM_group?_iff.mp hts
    -- the text is its pieces with commas between them, and each piece has been read as a group
    have hcs : [','].intercalate (cs.splitOn ',') = cs := List.intercalate_splitOn ','
    cases hsplit : cs.splitOn ',' with
    | nil => exact absurd hsplit (List.splitOnP_ne_nil _ cs)
    | cons g gs =>
      rw [hsplit] at hgs hcs
      rw [← hcs]
      cases hgs with
      | cons hg hgs =>
        cases hgs with
        | nil =>
          rw [List.intercalate_singleton]
          exact .one hg
        | cons hg' hgs =>
          exact .several (.cons hg (.cons hg' hgs)) (Nat.le_add_left 2 _)
  · intro h
    cases h with
    | one hg =>
      have hgs : List.Forall₂ GroupText [cs] [t] := .cons hg .nil
      have hsplit := splitOn_intercalate_groups hgs (List.cons_ne_nil cs [])
      rw [List.intercalate_singleton] at hsplit
      rw [hsplit, mapM_group?_iff.mpr hgs]
      rfl
    | @several gs ts hgs hlen =>
      have hne : gs ≠ [] := List.ne_nil_of_length_pos (Nat.zero_lt_of_lt hlen)
      rw [splitOn_intercalate_groups hgs hne, mapM_group?_iff.mpr hgs]
      have hts : 2 ≤ ts.length := hgs.length_eq ▸ hlen
      match ts, hts with
      | _ :: _ :: _, _ => rfl

/-! ### No text of the grammar means nothing -/

theorem Compound.ne_invalid (h : Compound cs t) : t ≠ .invalid := by
  cases h with
  | several _ _ => exact Selector.noConfusion
  | single h =>
    rintro rfl
    cases h with
    | bare hms =>
      cases hms with
      | cons hm _ => cases hm

theorem Denotes.ne_invalid (h : Denotes cs t) : t ≠ .invalid := by
  cases h with
  | several _ _ => exact Selector.noConfusion
  | one hg =>
    obtain ⟨bs, cs', bs', -, hchain, -, -⟩ := hg
    cases hchain with
    | compound hc => exact hc.ne_invalid
    | within _ _ _ => exact Selector.noConfusion

theorem parse_of_denotes {text : String} (h : Denotes text.toList t) : parse text = t := by
  rw [parse, parse?_iff.mpr h, Option.getD_some]

/-- A text that is read stands for what it is read as. -/
theorem denotes_parse {text : String} (h : parse text ≠ .invalid) :
    Denotes text.toList (parse text) := by
  rw [parse] at h ⊢
  cases hp : parse? text.toList with
  | none =>
    rw [hp] at h
    exact absurd rfl h
  | some t => exact parse?_iff.mp hp

/-- **Reading is the grammar.**  A text is read as a selector if and only if the grammar
derives it, and then as the selector that the derivation dictates. -/
theorem parse_grammar (text : String) :
    (parse text ≠ .invalid ↔ ∃ s, Denotes text.toList s) ∧
      ∀ s, Denotes text.toList s → parse text = s := by
  refine ⟨⟨fun h => ⟨parse text, denotes_parse h⟩, ?_⟩, fun s => parse_of_denotes⟩
  rintro ⟨s, hs⟩
  rw [parse_of_denotes hs]
  exact hs.ne_invalid

end Selector
end Cascade
