import Synaptica.Gql.Accepting

/-!
# The parser reads back patterns

The parsing functions of expressions in their places, of nodes, edges and paths accept what is printed of
their results. A path ends at a comma, at `WHERE` or at the end of the statement, and none of these goes on
with an expression.
-/

namespace Synaptica.Gql

section Statements

variable {debug : Token → String} {s : ParseM GqlStatement}

/-! ## Expressions in their places -/

theorem accepts_expression {e : Expression} (he : e.Readable) :
    Accepts (parseExpression debug s) e.tokens e Token.EndsExpression := by
  intro p rest hp hrest hdepth
  apply he.printable.roundTrips.value hp
  · intro l hl
    rw [Token.EndsExpression, hl] at hrest
    cases hrest
  · rw [hdepth, Nat.zero_add]
    exact he.nest

/-- A star is read as a name when nothing stands before it. -/
theorem accepts_star :
    Accepts (parseExpression debug s) [.star] (.identifier "*") Token.EndsExpression := by
  intro p rest hp hrest _
  have hahead : p.ahead = .star :: rest := hp
  have hrest' : (p.skip 1).ahead = rest := Parser.ahead_skip_one hahead
  have hprimary : parsePrimary debug s p = some (.ok (.identifier "*", p.skip 1)) := by
    rw [parsePrimary, peekToken_bind _ hahead]
    show (advance >>= _) p = _
    rw [advance_bind _ hahead (by simp)]
    rfl
  have hstop : ∀ level, Stops level (p.skip 1).ahead := by
    intro level l hl
    rw [hrest', hrest] at hl
    cases hl
  have hpass : Passes 10 p.peek := by
    rw [Parser.peek_of_ahead hahead]
    exact passes_of_ne (by simp) (by simp) (by simp)
  have hchain : parserAt debug s 0 p = some (.ok (.identifier "*", p.skip 1)) := by
    rw [parserAt_of_lt (by omega) (le_refl 10) hpass (hstop 1) hprimary]
    exact goOn_stops (hstop 0)
  exact hchain

theorem Expression.Readable.exists_head {e : Expression} (he : e.Readable) :
    ∃ t us, e.tokens = t :: us ∧ t ∉ closers := by
  have htrip : RoundTrips (fun _ => "") (pure .listGraphs) e := he.printable.roundTrips
  obtain ⟨t, us, h, ht, -⟩ := htrip.begins
  exact ⟨t, us, h, ht⟩

/-- Items begin as the first of them does. -/
theorem commaTokens_head {α : Type} {print : α → List Token} {items : List α} {P : Token → Prop}
    (hne : items ≠ []) (h : ∀ item ∈ items, ∃ t us, print item = t :: us ∧ P t) :
    ∃ t us, commaTokens print items = t :: us ∧ P t := by
  obtain ⟨first, more, rfl⟩ := List.exists_cons_of_ne_nil hne
  obtain ⟨t, us, hprint, ht⟩ := h first (List.mem_cons_self ..)
  exact ⟨t, us ++ eachBehind .comma print more, by rw [commaTokens_cons, hprint]; rfl, ht⟩

/-- What may follow a clause: no expression goes on with it, and no further item. -/
structure EndsClause (t : Token) : Prop where
  ends : t.EndsExpression
  comma : t ≠ .comma

theorem endsClause_of {t : Token} (h : t.binding = none) (ht : t ≠ .comma) : EndsClause t := ⟨h, ht⟩

theorem accepts_items {α : Type} {x : ParseM α} {print : α → List Token} {items : List α}
    {G : Token → Prop} (hne : items ≠ [])
    (hx : ∀ item ∈ items, Accepts x (print item) item Token.EndsExpression)
    (hG : ∀ t, G t → EndsClause t) : Accepts (commaItems x) (commaTokens print items) items G :=
  accepts_commaItems hne hx rfl fun u hu => ⟨(hG u hu).ends, (hG u hu).comma⟩

/-! ## Patterns -/

theorem accepts_propertyEntry {entry : String × Expression} (he : entry.2.Readable) :
    Accepts (parsePropertyEntry debug s)
      (propertyToken entry.1 :: .colon :: entry.2.tokens) entry Token.EndsExpression := by
  apply accepts_identOrKeyword
  apply accepts_expect (by simp)
  exact (accepts_expression he).map rfl fun _ h => h

theorem propertyToken_ne {t : Token} (ht : ∀ name, t ≠ .ident name)
    (hkey : propertyKeywords.lookup t = none) (name : String) : propertyToken name ≠ t := by
  rcases propertyToken_ident name with hident | ⟨-, hlookup⟩
  · rw [hident]
    exact (ht name).symm
  · rintro rfl
    rw [hkey] at hlookup
    cases hlookup

theorem accepts_propertyMap {properties : List (String × Expression)} (hne : properties ≠ [])
    (hp : ∀ entry ∈ properties, entry.2.Readable) (G : Token → Prop) :
    Accepts (parsePropertyMap debug s) (.lBrace :: commaTokens
      (fun entry => propertyToken entry.1 :: .colon :: entry.2.tokens) properties ++ [.rBrace])
        properties G := by
  have hentries := accepts_items (x := parsePropertyEntry debug s) (G := (· = .rBrace)) hne
    (fun entry h => accepts_propertyEntry (hp entry h)) (by rintro t rfl; exact endsClause_of rfl (by simp))
  obtain ⟨first, more, rfl⟩ := List.exists_cons_of_ne_nil hne
  apply accepts_expect (by simp)
  rw [commaTokens_cons] at hentries ⊢
  apply accepts_peek_cons
  rw [if_pos (propertyToken_ne (by simp) rfl _)]
  apply hentries.bind
  · exact accepts_expect (by simp) (accepts_pure _ _)
  · exact fun _ _ => rfl

/-- The variable of a pattern is followed by a label, a map or the end of the pattern. -/
theorem accepts_patternVariable {close : Token} (hclose : close = .rParen ∨ close = .rBracket)
    (var : Option String) :
    Accepts (parsePatternVariable debug close) (var.toList.map Token.ident) var
      fun t => t = .colon ∨ t = close ∨ t = .lBrace := by
  cases var with
  | none =>
    apply accepts_peek_nil
    rintro t (rfl | rfl | rfl)
    · rfl
    · rcases hclose with rfl | rfl <;> rfl
    · rfl
  | some name =>
    intro p rest hp hrest hdepth
    have hahead : p.ahead = .ident name :: rest := hp
    have hnext : p.peekAt 1 = some .colon ∨ p.peekAt 1 = some close ∨ p.peekAt 1 = some .lBrace := by
      rw [Parser.peekAt_one_of_ahead hahead]
      cases rest with
      | nil => rcases hclose with rfl | rfl <;> simp at hrest
      | cons t ts => simpa using hrest
    rw [parsePatternVariable, peekToken_bind _ hahead]
    show ((get : ParseM Parser) >>= _) p = _
    rw [get_bind]
    rw [if_pos hnext, expectIdent_bind _ hahead]
    rfl

theorem accepts_labels (labels : List String) :
    Accepts (parseLabels debug) (eachBehind .colon identTokens labels) labels (· ≠ .colon) :=
  accepts_itemLoop (by simp) (fun _ _ => accepts_ident_last fun _ => True) trivial
    (fun _ h => ⟨trivial, h⟩) []

theorem accepts_internals {close : Token} (hclose : close = .rParen ∨ close = .rBracket)
    (var : Option String) (labels : List String) {properties : List (String × Expression)}
    (hp : ∀ entry ∈ properties, entry.2.Readable) :
    Accepts (parsePatternInternals debug s close) (internalsTokens var labels properties)
      (var, labels, properties) (· = close) := by
  have hmap : ∀ t, t = close → ((propertyMapTokens properties ++ [t]).headD .eof) = close ∨
      (propertyMapTokens properties ++ [t]).headD .eof = .lBrace := by
    rintro t rfl
    unfold propertyMapTokens
    split
    · exact .inl rfl
    · exact .inr rfl
  apply (accepts_patternVariable hclose var).bind
  · apply (accepts_labels labels).bind
    · unfold propertyMapTokens
      cases properties with
      | nil =>
        apply accepts_peek_nil
        rintro t rfl
        rcases hclose with rfl | rfl <;> rfl
      | cons entry properties =>
        apply accepts_peek_cons
        rw [if_pos rfl]
        exact (accepts_propertyMap (by simp) hp fun _ => True).map rfl fun _ _ => trivial
    · intro t ht
      rcases hmap t ht with h | h <;> rw [h]
      · rcases hclose with rfl | rfl <;> simp
      · simp
  · intro t ht
    cases labels with
    | nil =>
      rcases hmap t ht with h | h
      · exact .inr (.inl h)
      · exact .inr (.inr h)
    | cons label labels => exact .inl rfl

theorem accepts_nodePattern {n : NodePattern} (hn : ∀ entry ∈ n.properties, entry.2.Readable)
    (G : Token → Prop) : Accepts (parseNodePattern debug s) n.tokens n G := by
  apply accepts_expect (by simp)
  apply (accepts_internals (.inl rfl) n.var n.labels hn).bind
  · exact accepts_expect (by simp) (accepts_pure _ _)
  · exact fun _ _ => rfl

/-- Where no brace follows there is no quantifier. -/
theorem accepts_quantifier : Accepts (parseOptionalQuantifier debug) [] none (· ≠ .lBrace) := by
  intro p rest hp hrest hdepth
  have hbrace : p.peek ≠ .lBrace := by
    rw [Parser.peek_eq_headD, hp]
    exact hrest
  have hbegins : quantifierBegins p = some (.ok (false, p)) := by
    rw [quantifierBegins, bind_of (x := peekToken) _ rfl, if_neg hbrace]
    rfl
  rw [parseOptionalQuantifier, bind_of _ hbegins]
  rfl

theorem accepts_edgeQuantifier (e : EdgePattern) :
    Accepts (do
      let _ ← parseOptionalQuantifier debug
      return e) [] e (· ≠ .lBrace) :=
  accepts_quantifier.map rfl fun _ h => h

theorem accepts_edgePattern {e : EdgePattern} (he : ∀ entry ∈ e.properties, entry.2.Readable) :
    Accepts (parseEdgePattern debug s) e.tokens e (· ≠ .lBrace) := by
  obtain ⟨var, direction, labels, properties⟩ := e
  have hinternals : Accepts (parsePatternInternals debug s .rBracket)
      (internalsTokens var labels properties) (var, labels, properties) (· = .rBracket) :=
    accepts_internals (.inr rfl) var labels he
  cases direction with
  | outgoing =>
    apply accepts_peek_cons
    rw [if_neg (by simp), if_neg (by simp), if_pos rfl]
    apply accepts_advance (by simp)
    apply accepts_expect (by simp)
    apply hinternals.bind
    · apply accepts_expect (by simp)
      exact accepts_match (by simp) (accepts_edgeQuantifier _)
    · exact fun _ _ => rfl
  | incoming =>
    apply accepts_peek_cons
    rw [if_pos rfl]
    apply accepts_advance (by simp)
    apply accepts_peek_cons
    rw [if_pos rfl]
    apply accepts_advance (by simp)
    apply hinternals.bind
    · apply accepts_expect (by simp)
      exact accepts_expect (by simp) (accepts_edgeQuantifier _)
    · exact fun _ _ => rfl
  | undirected =>
    apply accepts_peek_cons
    rw [if_neg (by simp), if_neg (by simp), if_pos rfl]
    apply accepts_advance (by simp)
    apply accepts_expect (by simp)
    apply hinternals.bind
    · apply accepts_expect (by simp)
      apply accepts_match_other (fun _ _ => by simp)
      exact accepts_expect (by simp) (accepts_edgeQuantifier _)
    · exact fun _ _ => rfl

/-- The tokens that begin a statement. -/
def statementBegins : List Token :=
  [.match_, .optional, .return_, .with_, .call, .insert, .set, .delete, .detach, .remove, .create, .drop,
    .list]

/-- What may stand behind a statement: a semicolon, the end, or the next statement. -/
def statementEnds : List Token := .semicolon :: .eof :: statementBegins

theorem endsExpression_of_mem :
    ∀ u ∈ Token.where_ :: .order :: .limit :: .offset :: statementEnds, u.EndsExpression := by
  unfold Token.EndsExpression
  decide

theorem endsExpression_of_end {u : Token} (h : u ∈ statementEnds) : u.EndsExpression := by
  apply endsExpression_of_mem
  simp [h]

/-- What may stand behind a path. -/
def EndsPath (t : Token) : Prop := t ∈ .comma :: .where_ :: statementEnds

theorem EndsPath.ne {t u : Token} (h : EndsPath t) (hu : u ∉ .comma :: .where_ :: statementEnds) :
    t ≠ u :=
  ne_of_mem_of_not_mem h hu

theorem isEdgeStart_of_edge {p : Parser} {rest : List Token} (e : EdgePattern)
    (hp : p.ahead = e.tokens ++ rest) : isEdgeStart p = some (.ok (true, p)) := by
  obtain ⟨var, direction, labels, properties⟩ := e
  cases direction with
  | incoming =>
    rw [isEdgeStart, peekToken_bind (t := .leftArrow) _ hp]
    rfl
  | outgoing | undirected =>
    have hbracket : p.peekAt 1 = some .lBracket := by
      rw [Parser.peekAt_one_of_ahead (t := .minus) hp]
      rfl
    rw [isEdgeStart, peekToken_bind (t := .minus) _ hp]
    show ((get : ParseM Parser) >>= _) p = _
    rw [get_bind, hbracket]
    rfl

theorem isEdgeStart_of_ends {p : Parser} (hp : EndsPath p.peek) :
    isEdgeStart p = some (.ok (false, p)) := by
  rw [isEdgeStart, bind_of (x := peekToken) _ rfl]
  generalize p.peek = t at hp ⊢
  unfold EndsPath statementEnds statementBegins at hp
  fin_cases hp <;> rfl

theorem EdgePattern.exists_tokens (e : EdgePattern) :
    ∃ ts, e.tokens = .minus :: ts ∨ e.tokens = .leftArrow :: ts := by
  obtain ⟨var, direction, labels, properties⟩ := e
  cases direction
  · exact ⟨_, .inl rfl⟩
  · exact ⟨_, .inr rfl⟩
  · exact ⟨_, .inl rfl⟩

/-- The parser after a node that may be there, and all the edges behind it. -/
def nodeAndEdges (debug : Token → String) (s : ParseM GqlStatement) (before : List PatternElement) :
    ParseM (List PatternElement) := do
  let node ← parseOptionalNode debug s
  edgeLoop debug s (before ++ node)

def elementTokens (elements : List PatternElement) : List Token :=
  elements.flatMap PatternElement.tokens

theorem accepts_edgeLoop_nil (before : List PatternElement) :
    Accepts (edgeLoop debug s before) [] before EndsPath := by
  intro p rest hp hrest hdepth
  have hends : EndsPath p.peek := by
    rw [Parser.peek_eq_headD, hp]
    exact hrest
  rw [edgeLoop, bind_of _ (isEdgeStart_of_ends hends)]
  rfl

theorem accepts_edgeLoop_cons {e : EdgePattern} {elements : List PatternElement}
    (he : ∀ entry ∈ e.properties, entry.2.Readable) (before : List PatternElement)
    (hlater : Accepts (nodeAndEdges debug s (before ++ [.edge e])) (elementTokens elements)
      (before ++ .edge e :: elements) EndsPath) :
    Accepts (edgeLoop debug s before) (e.tokens ++ elementTokens elements)
      (before ++ .edge e :: elements) EndsPath := by
  have hbody : Accepts (do
      let edge ← parseEdgePattern debug s
      let node ← parseOptionalNode debug s
      edgeLoop debug s (before ++ .edge edge :: node)) (e.tokens ++ elementTokens elements)
      (before ++ .edge e :: elements) EndsPath := by
    apply (accepts_edgePattern he).bind
    · simpa [nodeAndEdges] using hlater
    · intro t ht
      cases elements with
      | nil => exact ht.ne (by decide)
      | cons element elements =>
        cases element with
        | node n => simp [elementTokens, PatternElement.tokens, NodePattern.tokens]
        | edge e' =>
          obtain ⟨ts, h | h⟩ := e'.exists_tokens <;> simp [elementTokens, PatternElement.tokens, h]
  intro p rest hp hrest hdepth
  rw [List.append_assoc] at hp
  rw [edgeLoop, bind_of _ (isEdgeStart_of_edge e hp)]
  rw [← List.append_assoc] at hp
  exact hbody p rest hp hrest hdepth

/-- Where no node begins, the edges are read at once. -/
theorem accepts_no_node {before : List PatternElement} {ts : List Token} {a : List PatternElement}
    (hloop : Accepts (edgeLoop debug s before) ts a EndsPath)
    (hparen : ∀ u, EndsPath u → (ts ++ [u]).headD .eof ≠ .lParen) :
    Accepts (nodeAndEdges debug s before) ts a EndsPath := by
  intro p rest hp hrest hdepth
  have hpeek : p.peek ≠ .lParen := by
    rw [Parser.peek_eq_headD, hp, headD_append]
    exact hparen _ hrest
  have hnode : parseOptionalNode debug s p = some (.ok ([], p)) := by
    rw [parseOptionalNode, bind_of (x := peekToken) _ rfl, if_neg hpeek]
    rfl
  rw [nodeAndEdges, bind_of _ hnode, List.append_nil]
  exact hloop p rest hp hrest hdepth

theorem accepts_node {n : NodePattern} {before : List PatternElement} {ts : List Token}
    {a : List PatternElement} (hn : ∀ entry ∈ n.properties, entry.2.Readable)
    (hloop : Accepts (edgeLoop debug s (before ++ [.node n])) ts a EndsPath) :
    Accepts (nodeAndEdges debug s before) (n.tokens ++ ts) a EndsPath := by
  have hnode : Accepts (parseOptionalNode debug s) n.tokens [.node n] fun _ => True := by
    apply accepts_peek_cons
    rw [if_pos rfl]
    exact (accepts_nodePattern hn fun _ => True).map rfl fun _ h => h
  exact hnode.bind hloop fun _ _ => trivial

/-- The elements of a path, from a place where a node may stand, and from one where none may. -/
theorem accepts_elements (elements : List PatternElement)
    (halt : elements.IsChain fun a b => a.asNode.isNone ∨ b.asNode.isNone)
    (hprops : ∀ element ∈ elements, ∀ entry ∈ element.properties, entry.2.Readable) :
    (∀ before, Accepts (nodeAndEdges debug s before) (elementTokens elements) (before ++ elements)
      EndsPath) ∧
    ((∀ n ∈ elements.head?, n.asNode.isNone) → ∀ before,
      Accepts (edgeLoop debug s before) (elementTokens elements) (before ++ elements) EndsPath) := by
  induction elements with
  | nil =>
    have hloop : ∀ before, Accepts (edgeLoop debug s before) [] (before ++ []) EndsPath := by
      intro before
      rw [List.append_nil]
      exact accepts_edgeLoop_nil before
    constructor
    · intro before
      exact accepts_no_node (hloop before) fun u hu => hu.ne (by decide)
    · exact fun _ => hloop
  | cons element elements ih =>
    obtain ⟨ihnode, ihloop⟩ := ih halt.of_cons fun b hb => hprops b (List.mem_cons_of_mem _ hb)
    have hown := hprops element (List.mem_cons_self ..)
    cases element with
    | node n =>
      constructor
      · intro before
        apply accepts_node hown
        have hfirst : ∀ b ∈ elements.head?, b.asNode.isNone := fun b hb =>
          ((List.isChain_cons.1 halt).1 b hb).resolve_left (by simp [PatternElement.asNode])
        have hlater := ihloop hfirst (before ++ [.node n])
        rwa [List.append_assoc] at hlater
      · intro hnode
        simp [PatternElement.asNode] at hnode
    | edge e =>
      have hloop : ∀ before, Accepts (edgeLoop debug s before)
          (elementTokens (.edge e :: elements)) (before ++ .edge e :: elements) EndsPath := by
        intro before
        apply accepts_edgeLoop_cons hown
        have hlater := ihnode (before ++ [.edge e])
        rwa [List.append_assoc] at hlater
      constructor
      · intro before
        apply accepts_no_node (hloop before)
        intro u _
        obtain ⟨ts, h | h⟩ := e.exists_tokens <;> simp [elementTokens, PatternElement.tokens, h]
      · exact fun _ => hloop

theorem accepts_pathMode {β : Type} {f : Unit → ParseM β} {ts : List Token} {b : β}
    {G : Token → Prop} (h : ∀ u, G u → (ts ++ [u]).headD .eof ∉ [.walk, .trail, .simple, .acyclic])
    (hf : Accepts (f ()) ts b G) : Accepts (parseOptionalPathMode >>= f) ts b G := by
  intro p rest hp hrest hdepth
  have hpeek : p.peek ∉ [.walk, .trail, .simple, .acyclic] := by
    rw [Parser.peek_eq_headD, hp, headD_append]
    exact h _ hrest
  have hmode : parseOptionalPathMode p = some (.ok ((), p)) := by
    rw [parseOptionalPathMode, bind_of (x := peekToken) _ rfl, if_neg]
    · rfl
    · simpa using hpeek
  rw [bind_of _ hmode]
  exact hf p rest hp hrest hdepth

theorem accepts_pathPattern {path : PathPattern} (hpath : path.Readable) :
    Accepts (parsePathPattern debug s) path.tokens path EndsPath := by
  obtain ⟨elements⟩ := path
  have helements := (@accepts_elements debug s elements hpath.alternates
    hpath.properties).1 []
  have hpath : Accepts (do
      let elements ← nodeAndEdges debug s []
      let _ ← parseOptionalQuantifier debug
      return PathPattern.mk elements) (elementTokens elements ++ []) ⟨elements⟩ EndsPath := by
    apply helements.bind
    · apply Accepts.map accepts_quantifier
      · rfl
      · exact fun u hu => hu.ne (by decide)
    · exact fun u hu => hu
  rw [List.append_nil] at hpath
  apply accepts_pathMode
  · intro u hu
    cases elements with
    | nil =>
      have hnone : ∀ u ∈ Token.comma :: .where_ :: statementEnds,
          u ∉ [Token.walk, .trail, .simple, .acyclic] := by
        decide
      exact hnone u hu
    | cons element elements =>
      cases element with
      | node n => simp [PathPattern.tokens, PatternElement.tokens, NodePattern.tokens]
      | edge e =>
        obtain ⟨ts, h | h⟩ := e.exists_tokens <;> simp [PathPattern.tokens, PatternElement.tokens, h]
  · rw [nodeAndEdges, bind_assoc] at hpath
    exact hpath

/-- What may stand behind the paths of a clause. -/
def EndsPatterns (t : Token) : Prop := t ∈ .where_ :: statementEnds

theorem accepts_patterns {paths : List PathPattern} (hne : paths ≠ [])
    (hp : ∀ path ∈ paths, path.Readable) : Accepts (commaItems (parsePathPattern debug s))
      (commaTokens PathPattern.tokens paths) paths EndsPatterns := by
  apply accepts_commaItems hne
  · exact fun path h => accepts_pathPattern (hp path h)
  · exact List.mem_cons_self
  · exact fun u hu => ⟨List.mem_cons_of_mem _ hu, ne_of_mem_of_not_mem hu (by decide)⟩

end Statements

end Synaptica.Gql
