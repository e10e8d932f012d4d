import Synaptica.Gql.Layout
import Synaptica.Gql.PatternRoundTrip

/-!
# The parser reads back programs

Every parsing function of clauses and statements accepts what is printed of its result; `parse_renders`
puts them together with the lexer: however a program is laid out, the text is read as the program.
-/

namespace Synaptica.Gql

section Statements

variable {debug : Token → String} {s : ParseM GqlStatement}

/-! ## Clauses

The clauses behind a projection come in one order, so that what may follow one of them is a list of the
keywords that are still to come. -/

theorem headD_clause {α : Type} {keyword : Token} {keywords us L : List Token}
    {print : α → List Token} (clause : Option α) (h : us.headD .eof ∈ L) :
    (clauseTokens (keyword :: keywords) print clause ++ us).headD .eof ∈ keyword :: L := by
  cases clause with
  | none => exact List.mem_cons_of_mem _ h
  | some c => exact List.mem_cons_self ..

theorem accepts_optionalClause {keyword : Token} (ht : keyword ≠ .eof) {clause : Option Expression}
    (hc : ∀ e ∈ clause, e.Readable) : Accepts (parseOptionalClause debug s keyword)
      (clauseTokens [keyword] Expression.tokens clause) clause
      fun u => u.EndsExpression ∧ u ≠ keyword := by
  cases clause with
  | none => exact accepts_match_other (fun _ hu => hu.2) (accepts_pure none _)
  | some e =>
    apply accepts_match ht
    exact (accepts_expression (hc e rfl)).map rfl fun _ hu => hu.1

theorem accepts_where {clause : Option Expression} (hc : ∀ e ∈ clause, e.Readable) :
    Accepts (parseOptionalWhere debug s) (clauseTokens [.where_] Expression.tokens clause) clause
      fun u => u.EndsExpression ∧ u ≠ .where_ := by
  cases clause with
  | none => exact accepts_peek_nil fun u hu => by rw [if_neg hu.2]
  | some e =>
    apply accepts_peek_cons
    rw [if_pos rfl, parseWhereClause, bind_assoc]
    apply accepts_expect (by simp)
    exact (accepts_expression (hc e rfl)).map rfl fun _ hu => hu.1

theorem accepts_orderByItem {item : OrderByItem} (hi : item.expression.Readable)
    (G : Token → Prop) : Accepts (parseOrderByItem debug s) item.tokens item G := by
  obtain ⟨e, direction⟩ := item
  apply (accepts_expression hi).bind
  · cases direction with
    | desc => exact accepts_match (by simp) (accepts_pure _ G)
    | asc =>
      apply accepts_match_other (fun _ _ => by simp)
      exact accepts_match (by simp) (accepts_pure _ G)
  · cases direction <;> exact fun _ _ => rfl

theorem accepts_orderBy {orderBy : Option (List OrderByItem)}
    (ho : ∀ items ∈ orderBy, items ≠ [] ∧ ∀ item ∈ items, item.expression.Readable) :
    Accepts (parseOptionalOrderBy debug s) (orderByTokens orderBy) orderBy
      fun u => u ≠ .comma ∧ u ≠ .order := by
  cases orderBy with
  | none => exact accepts_peek_nil fun u hu => by rw [if_neg hu.2]
  | some items =>
    obtain ⟨hne, hi⟩ := ho items rfl
    apply accepts_peek_cons
    rw [if_pos rfl, parseOrderByClause, bind_assoc]
    apply accepts_expect (by simp)
    rw [bind_assoc]
    apply accepts_expect (by simp)
    have hitem : ∀ item ∈ items, Accepts (parseOrderByItem debug s) item.tokens item fun _ => True :=
      fun item h => accepts_orderByItem (hi item h) _
    apply Accepts.map (accepts_commaItems hne hitem trivial fun u hu => ⟨trivial, hu⟩)
    · rfl
    · exact fun u hu => hu.1

theorem accepts_bounds {limit offset : Option Expression} (hl : ∀ e ∈ limit, e.Readable)
    (ho : ∀ e ∈ offset, e.Readable) : Accepts (parseLimitOffset debug s)
      (clauseTokens [.limit] Expression.tokens limit ++
        clauseTokens [.offset] Expression.tokens offset)
      (if limit.isSome ∨ offset.isSome then some ⟨limit, offset⟩ else none) (· ∈ statementEnds) := by
  apply (accepts_optionalClause (by simp) hl).bind
  · apply Accepts.map (accepts_optionalClause (by simp) ho)
    · split <;> rfl
    · exact fun u hu => ⟨endsExpression_of_end hu, ne_of_mem_of_not_mem hu (by decide)⟩
  · intro u hu
    have hhead : (clauseTokens [.offset] Expression.tokens offset ++ [u]).headD .eof ∈
        Token.offset :: statementEnds :=
      headD_clause offset hu
    exact ⟨endsExpression_of_mem _ (List.mem_cons_of_mem _ (List.mem_cons_of_mem _
      (List.mem_cons_of_mem _ hhead))), ne_of_mem_of_not_mem hhead (by decide)⟩

theorem accepts_limitOffset {clause : Option LimitOffsetClause} (hc : ∀ c ∈ clause, c.Readable) :
    Accepts (parseLimitOffset debug s) (limitOffsetTokens clause) clause (· ∈ statementEnds) := by
  cases clause with
  | none => exact @accepts_bounds debug s none none (by simp) (by simp)
  | some c =>
    have hc := hc c rfl
    have hbounds := @accepts_bounds debug s _ _ hc.limit hc.offset
    rwa [if_pos hc.some] at hbounds

/-! ## Projections -/

theorem accepts_returnExpression {e : Expression} (he : e = .identifier "*" ∨ e.Readable) :
    Accepts (parseExpression debug s) (returnTokens e) e Token.EndsExpression := by
  rcases he with rfl | he
  · exact accepts_star
  · have hprint := he.printable
    cases hprint with
    | identifier hname =>
      rw [returnTokens, if_neg hname]
      exact accepts_expression he
    | _ => exact accepts_expression he

/-- The item of a projection is followed by `AS`, a comma or the next clause. -/
theorem accepts_returnItem {item : ReturnItem} (hi : item.Readable) :
    Accepts (parseReturnItem debug s) item.tokens item fun u => u.EndsExpression ∧ u ≠ .as := by
  obtain ⟨e, aliasName⟩ := item
  apply (accepts_returnExpression hi).bind
  · cases aliasName with
    | none => exact accepts_match_other (fun _ hu => hu.2) (accepts_pure _ _)
    | some name =>
      apply accepts_match (by simp)
      exact accepts_identOrKeyword (accepts_pure _ _)
  · cases aliasName with
    | none => exact fun _ hu => hu.1
    | some name => exact fun _ _ => rfl

theorem ReturnItem.Readable.exists_head {item : ReturnItem} (hi : item.Readable) :
    ∃ t us, item.tokens = t :: us ∧ t ≠ .distinct := by
  have hexpr : ∃ t us, returnTokens item.expression = t :: us ∧ t ≠ .distinct := by
    rcases hi with h | h
    · exact ⟨.star, [], by rw [h]; rfl, by simp⟩
    · obtain ⟨t, us, htokens, ht⟩ := h.exists_head
      refine ⟨t, us, ?_, by rintro rfl; exact ht (by decide)⟩
      have hprint := h.printable
      rw [← htokens]
      cases hitem : item.expression with
      | identifier name =>
        rw [hitem] at hprint
        cases hprint with
        | identifier hname => exact if_neg hname
      | _ => rfl
  obtain ⟨t, us, h, ht⟩ := hexpr
  exact ⟨t, _, by rw [ReturnItem.tokens, h]; rfl, ht⟩

/-- `DISTINCT` is read only where it is printed. -/
theorem accepts_distinct (distinct : Bool) {items : List ReturnItem} (hne : items ≠ [])
    (hi : ∀ item ∈ items, item.Readable) {β : Type} {f : Bool → ParseM β} {us : List Token} {b : β}
    {G : Token → Prop} (hf : Accepts (f distinct) (commaTokens ReturnItem.tokens items ++ us) b G) :
    Accepts (matchToken .distinct >>= f)
      (flagTokens .distinct distinct ++ (commaTokens ReturnItem.tokens items ++ us)) b G := by
  apply (accepts_flag distinct (by simp)).bind hf
  intro u _
  obtain ⟨t, vs, h, ht⟩ := commaTokens_head hne fun item h => (hi item h).exists_head
  rw [h]
  exact ht

theorem accepts_returnItems {items : List ReturnItem} (hne : items ≠ [])
    (hi : ∀ item ∈ items, item.Readable) : Accepts (parseReturnItems debug s)
      (commaTokens ReturnItem.tokens items) items
      fun u => u ∈ .where_ :: .order :: .limit :: .offset :: statementEnds := by
  apply accepts_commaItems hne fun item h => accepts_returnItem (hi item h)
  · exact ⟨rfl, by simp⟩
  · intro u hu
    exact ⟨⟨endsExpression_of_mem u hu, ne_of_mem_of_not_mem hu (by decide)⟩,
      ne_of_mem_of_not_mem hu (by decide)⟩

theorem limitOffset_headD (clause : Option LimitOffsetClause) {us L : List Token}
    (h : us.headD .eof ∈ L) :
    (limitOffsetTokens clause ++ us).headD .eof ∈ .limit :: .offset :: L := by
  cases clause with
  | none => exact List.mem_cons_of_mem _ (List.mem_cons_of_mem _ h)
  | some c =>
    rw [limitOffsetTokens, List.append_assoc]
    exact headD_clause c.limit (headD_clause c.offset h)

/-- The order and the bounds of a projection, which end the statement. -/
theorem accepts_tail {β : Type} {f : Option (List OrderByItem) → Option LimitOffsetClause → ParseM β}
    {orderBy : Option (List OrderByItem)} {limitOffset : Option LimitOffsetClause} {b : β}
    (ht : TailReadable orderBy limitOffset)
    (hf : Accepts (f orderBy limitOffset) [] b (· ∈ statementEnds)) :
    Accepts (do
      let orderBy ← parseOptionalOrderBy debug s
      let limitOffset ← parseLimitOffset debug s
      f orderBy limitOffset) (orderByTokens orderBy ++ limitOffsetTokens limitOffset) b
      (· ∈ statementEnds) := by
  apply (accepts_orderBy ht.orderBy).bind
  · rw [← List.append_nil (limitOffsetTokens limitOffset)]
    exact (accepts_limitOffset ht.limitOffset).bind hf fun _ hu => hu
  · intro u hu
    have hend : [u].headD .eof ∈ statementEnds := hu
    have hhead := limitOffset_headD limitOffset hend
    exact ⟨ne_of_mem_of_not_mem hhead (by decide), ne_of_mem_of_not_mem hhead (by decide)⟩

theorem tail_headD (orderBy : Option (List OrderByItem)) (limitOffset : Option LimitOffsetClause)
    {u : Token} (hu : u ∈ statementEnds) :
    (orderByTokens orderBy ++ limitOffsetTokens limitOffset ++ [u]).headD .eof ∈
      .order :: .limit :: .offset :: statementEnds := by
  have hend : [u].headD .eof ∈ statementEnds := hu
  rw [List.append_assoc]
  exact headD_clause orderBy (limitOffset_headD limitOffset hend)

theorem accepts_noComposite {statement : GqlStatement} :
    Accepts (maybeParseComposite s statement) [] statement (· ∈ statementEnds) := by
  apply accepts_peek_nil
  intro u hu
  have hnone : u ∉ [Token.union, .intersect, .except] := by
    have hends : ∀ u ∈ statementEnds, u ∉ [Token.union, .intersect, .except] := by decide
    exact hends u hu
  rw [if_neg (by simpa using hnone)]

theorem accepts_noGroupBy {β : Type} {f : Option (List Expression) → ParseM β} {ts : List Token}
    {b : β} {G : Token → Prop} (h : ∀ u, G u → (ts ++ [u]).headD .eof ≠ .group)
    (hf : Accepts (f none) ts b G) : Accepts (parseOptionalGroupBy debug s >>= f) ts b G := by
  intro p rest hp hrest hdepth
  have hpeek : p.peek ≠ .group := by
    rw [Parser.peek_eq_headD, hp, headD_append]
    exact h _ hrest
  have hgroup : parseOptionalGroupBy debug s p = some (.ok (none, p)) := by
    rw [parseOptionalGroupBy, bind_of (x := peekToken) _ rfl, if_neg hpeek]
    rfl
  rw [bind_of _ hgroup]
  exact hf p rest hp hrest hdepth

theorem accepts_noClause {β : Type} {f : Option Expression → ParseM β} {keyword : Token}
    {ts : List Token} {b : β} {G : Token → Prop}
    (h : ∀ u, G u → (ts ++ [u]).headD .eof ≠ keyword) (hf : Accepts (f none) ts b G) :
    Accepts (parseOptionalClause debug s keyword >>= f) ts b G := by
  rw [parseOptionalClause, bind_assoc]
  exact accepts_match_other h hf

/-! ## Statements -/

theorem accepts_matchStatement {paths : List PathPattern} {clause : Option Expression}
    (hne : paths ≠ []) (hp : ∀ path ∈ paths, path.Readable) (hw : ∀ e ∈ clause, e.Readable) :
    Accepts (parseMatchStatement debug s) (GqlStatement.matchStmt ⟨none, paths, clause⟩).tokens
      (.matchStmt ⟨none, paths, clause⟩) (· ∈ statementEnds) := by
  have hbounds : Accepts (do
      let _ ← parseOptionalOrderBy debug s
      let _ ← parseLimitOffset debug s
      maybeParseComposite s (.matchStmt ⟨none, paths, clause⟩)) [] (.matchStmt ⟨none, paths, clause⟩)
      (· ∈ statementEnds) :=
    @accepts_tail debug s _ _ none none _ ⟨by simp, by simp⟩ accepts_noComposite
  apply accepts_expect (by simp)
  apply (accepts_patterns hne hp).bind
  · rw [← List.append_nil (clauseTokens ..)]
    apply (accepts_where hw).bind hbounds
    exact fun u hu => ⟨endsExpression_of_end hu, ne_of_mem_of_not_mem hu (by decide)⟩
  · exact fun u hu => headD_clause clause hu

theorem accepts_returnStatement (distinct : Bool) {items : List ReturnItem}
    {orderBy : Option (List OrderByItem)} {limitOffset : Option LimitOffsetClause}
    (hne : items ≠ []) (hi : ∀ item ∈ items, item.Readable) (ht : TailReadable orderBy limitOffset) :
    Accepts (parseReturnStatement debug s)
      (GqlStatement.returnStmt ⟨distinct, items, orderBy, limitOffset⟩).tokens
      (.returnStmt ⟨distinct, items, orderBy, limitOffset⟩) (· ∈ statementEnds) := by
  apply accepts_expect (by simp)
  apply accepts_distinct distinct hne hi
  apply (accepts_returnItems hne hi).bind
  · apply accepts_noGroupBy
    · exact fun u hu => ne_of_mem_of_not_mem (tail_headD orderBy limitOffset hu) (by decide)
    · apply accepts_noClause
      · exact fun u hu => ne_of_mem_of_not_mem (tail_headD orderBy limitOffset hu) (by decide)
      · exact accepts_tail ht accepts_noComposite
  · exact fun u hu => List.mem_cons_of_mem _ (tail_headD orderBy limitOffset hu)

theorem accepts_withStatement (distinct : Bool) {items : List ReturnItem} {clause : Option Expression}
    {orderBy : Option (List OrderByItem)} {limitOffset : Option LimitOffsetClause}
    (hne : items ≠ []) (hi : ∀ item ∈ items, item.Readable) (hw : ∀ e ∈ clause, e.Readable)
    (ht : TailReadable orderBy limitOffset) : Accepts (parseWithStatement debug s)
      (GqlStatement.withStmt ⟨distinct, items, clause, orderBy, limitOffset⟩).tokens
      (.withStmt ⟨distinct, items, clause, orderBy, limitOffset⟩) (· ∈ statementEnds) := by
  apply accepts_expect (by simp)
  apply accepts_distinct distinct hne hi
  apply (accepts_returnItems hne hi).bind
  · apply (accepts_where hw).bind
    · exact accepts_tail ht (accepts_pure _ _)
    · intro u hu
      have hhead := tail_headD orderBy limitOffset hu
      exact ⟨endsExpression_of_mem _ (List.mem_cons_of_mem _ hhead),
        ne_of_mem_of_not_mem hhead (by decide)⟩
  · intro u hu
    rw [List.append_assoc]
    exact headD_clause clause (tail_headD orderBy limitOffset hu)

theorem accepts_expressions {es : List Expression} {G : Token → Prop} (hne : es ≠ [])
    (he : ∀ e ∈ es, e.Readable) (hG : ∀ u, G u → u.EndsExpression ∧ u ≠ .comma) :
    Accepts (commaItems (parseExpression debug s)) (commaTokens Expression.tokens es) es G :=
  accepts_commaItems hne (fun e h => accepts_expression (he e h)) rfl hG

/-- The parts of a name, joined as the parser joins them. -/
theorem foldl_parts (first : String) (parts : List String) :
    parts.foldl (fun name part => name ++ "." ++ part) first =
      String.intercalate "." (first :: parts) := by
  induction parts generalizing first with
  | nil => rw [List.foldl_nil, String.intercalate_singleton]
  | cons part parts ih =>
    rw [List.foldl_cons, ih, String.intercalate_cons_append, String.intercalate_cons_cons]

theorem intercalate_nameParts (name : String) :
    String.intercalate "." (nameParts name) = name := by
  rw [← String.toList_inj, String.toList_intercalate, nameParts, List.map_map]
  have hparts : (String.toList ∘ String.ofList) = id := by
    funext chars
    exact String.toList_ofList
  rw [hparts, List.map_id]
  exact List.intercalate_splitOn '.'

theorem accepts_arguments {arguments : List Expression} (ha : ∀ e ∈ arguments, e.Readable) :
    Accepts (parseArguments debug s) (argumentListTokens arguments) arguments (· ≠ .lParen) := by
  cases arguments with
  | nil => exact accepts_match_other (fun _ hu => hu) (accepts_pure _ _)
  | cons e es =>
    obtain ⟨t, us, htokens, ht⟩ := commaTokens_head (List.cons_ne_nil e es) fun e h =>
      (ha e h).exists_head
    have hargs : Accepts (commaItems (parseExpression debug s))
        (commaTokens Expression.tokens (e :: es)) (e :: es) (· = .rParen) := by
      apply accepts_expressions (List.cons_ne_nil e es) ha
      rintro u rfl
      exact ⟨rfl, by simp⟩
    show Accepts _ (.lParen :: (commaTokens Expression.tokens (e :: es) ++ [.rParen])) _ _
    rw [htokens] at hargs ⊢
    apply accepts_match (by simp)
    apply accepts_peek_cons
    rw [if_pos (by rintro rfl; exact ht (by decide))]
    apply hargs.bind
    · exact accepts_expect (by simp) (accepts_pure _ _)
    · exact fun _ _ => rfl

theorem accepts_insertStatement {patterns : List PathPattern} (hne : patterns ≠ [])
    (hp : ∀ path ∈ patterns, path.Readable) : Accepts (parseInsertStatement debug s)
      (GqlStatement.insert patterns).tokens (.insert patterns) (· ∈ statementEnds) := by
  apply accepts_expect (by simp)
  exact (accepts_patterns hne hp).map rfl fun _ hu => List.mem_cons_of_mem _ hu

theorem accepts_target {target : Expression} (ht : IsTarget target) :
    Accepts (parseTargetExpr debug) (targetTokens target) target (· ≠ .dot) := by
  suffices h : ∀ (us : List Token) (b : Expression), Accepts (targetLoop debug target) us b (· ≠ .dot) →
      Accepts (parseTargetExpr debug) (targetTokens target ++ us) b (· ≠ .dot) by
    have hstop : Accepts (targetLoop debug target) [] target (· ≠ .dot) := by
      rw [targetLoop]
      exact accepts_match_other (fun _ hu => hu) (accepts_pure _ _)
    simpa using h [] target hstop
  induction ht with
  | identifier name => exact fun us b hloop => accepts_ident hloop
  | @propertyAccess object _ property ih =>
    intro us b hloop
    rw [targetTokens, List.append_assoc]
    apply ih
    rw [targetLoop]
    apply accepts_match (by simp)
    exact accepts_identOrKeyword hloop

theorem accepts_setItem {item : SetItem} (hi : item.Readable) :
    Accepts (parseSetItem debug s) item.tokens item Token.EndsExpression := by
  cases hi with
  | property ht property hv =>
    apply (accepts_target (ht.propertyAccess property)).bind
    · apply accepts_match_other (fun _ _ => by simp)
      apply accepts_match (by simp)
      exact (accepts_expression hv).map rfl fun _ hu => hu
    · exact fun _ _ => by simp
  | label ht label =>
    apply (accepts_target ht).bind
    · apply accepts_match (by simp)
      exact accepts_ident (accepts_pure _ _)
    · exact fun _ _ => by simp
  | allProperties name hv =>
    apply (accepts_target (.identifier name)).bind
    · apply accepts_match_other (fun _ _ => by simp)
      apply accepts_match (by simp)
      exact (accepts_expression hv).map rfl fun _ hu => hu
    · exact fun _ _ => by simp

theorem accepts_setStatement {items : List SetItem} (hne : items ≠ [])
    (hi : ∀ item ∈ items, item.Readable) : Accepts (parseSetStatement debug s)
      (GqlStatement.set items).tokens (.set items) (· ∈ statementEnds) := by
  apply accepts_expect (by simp)
  apply Accepts.map (accepts_commaItems hne (fun item h => accepts_setItem (hi item h)) rfl
    fun u hu => hu)
  · rfl
  · exact fun u hu => ⟨endsExpression_of_end hu, ne_of_mem_of_not_mem hu (by decide)⟩

theorem accepts_deleteStatement (detach : Bool) {targets : List Expression} (hne : targets ≠ [])
    (ht : ∀ e ∈ targets, e.Readable) : Accepts (parseDeleteStatement debug s)
      (GqlStatement.delete detach targets).tokens (.delete detach targets) (· ∈ statementEnds) := by
  apply (accepts_flag detach (by simp)).bind
  · apply accepts_expect (by simp)
    apply Accepts.map (accepts_expressions hne ht fun u hu => hu)
    · rfl
    · exact fun u hu => ⟨endsExpression_of_end hu, ne_of_mem_of_not_mem hu (by decide)⟩
  · exact fun _ _ => by simp

theorem accepts_yield {procedure : String} {arguments : List Expression}
    {yieldItems : Option (List String)} (hy : yieldItems ≠ some []) :
    Accepts (do
      if ← matchToken .yield then
        let items ← commaItems (expectIdent debug)
        return GqlStatement.call procedure arguments (some items)
      else return GqlStatement.call procedure arguments none)
      (clauseTokens [.yield] (commaTokens identTokens) yieldItems)
      (.call procedure arguments yieldItems) (· ∈ statementEnds) := by
  cases yieldItems with
  | none =>
    apply accepts_match_other
    · exact fun u hu => ne_of_mem_of_not_mem (show u ∈ statementEnds from hu) (by decide)
    · exact accepts_pure _ _
  | some items =>
    have hne : items ≠ [] := by
      rintro rfl
      exact hy rfl
    apply accepts_match (by simp)
    have hname : ∀ name ∈ items, Accepts (expectIdent debug) (identTokens name) name fun _ => True :=
      fun name _ => accepts_ident_last _
    apply Accepts.map (accepts_commaItems hne hname trivial fun u hu => hu)
    · rfl
    · exact fun u hu => ⟨trivial, ne_of_mem_of_not_mem hu (by decide)⟩

theorem accepts_callStatement (procedure : String) {arguments : List Expression}
    {yieldItems : Option (List String)} (ha : ∀ e ∈ arguments, e.Readable) (hy : yieldItems ≠ some []) :
    Accepts (parseCallStatement debug s) (GqlStatement.call procedure arguments yieldItems).tokens
      (.call procedure arguments yieldItems) (· ∈ statementEnds) := by
  have hjoin := intercalate_nameParts procedure
  have hne : nameParts procedure ≠ [] := by
    simp [nameParts, List.splitOn_ne_nil]
  obtain ⟨first, parts, hparts⟩ := List.exists_cons_of_ne_nil hne
  rw [hparts, ← foldl_parts] at hjoin
  have hyield : ∀ u ∈ statementEnds, (clauseTokens [.yield] (commaTokens identTokens) yieldItems ++
      [u]).headD .eof ∈ .yield :: statementEnds :=
    fun u hu => headD_clause yieldItems hu
  have hargs : ∀ u ∈ statementEnds,
      ((argumentListTokens arguments ++ (clauseTokens [.yield] (commaTokens identTokens) yieldItems ++
        [u])).headD .eof) ∈ .lParen :: .yield :: statementEnds := by
    intro u hu
    unfold argumentListTokens
    split
    · exact List.mem_cons_of_mem _ (hyield u hu)
    · exact List.mem_cons_self
  rw [GqlStatement.tokens, procedureTokens, hparts]
  apply accepts_expect (by simp)
  apply accepts_ident
  have hloop : Accepts (itemLoop .dot (expectIdent debug) []) (eachBehind .dot identTokens parts)
      ([] ++ parts) (· ≠ .dot) :=
    accepts_itemLoop (by simp) (fun _ _ => accepts_ident_last fun _ => True) trivial
      (fun u hu => ⟨trivial, hu⟩) []
  apply hloop.bind
  · rw [List.nil_append, hjoin]
    apply (accepts_arguments ha).bind (accepts_yield hy)
    exact fun u hu => ne_of_mem_of_not_mem (hyield u hu) (by decide)
  · intro u hu
    rw [List.append_assoc]
    exact ne_of_mem_of_not_mem (hargs u hu) (by decide)

/-! ## Schema statements -/

theorem accepts_ifNotExists (flag : Bool) : Accepts (parseIfNotExists debug)
    (if flag then [.if_, .not, .exists_] else []) flag (· ≠ .if_) := by
  cases flag with
  | false => exact accepts_peek_nil fun u hu => by rw [if_neg hu]
  | true =>
    apply accepts_peek_cons
    rw [if_pos rfl]
    apply accepts_advance (by simp)
    apply accepts_expect (by simp)
    exact accepts_expect (by simp) (accepts_pure _ _)

theorem accepts_ifExists (flag : Bool) : Accepts (parseIfExists debug)
    (if flag then [.if_, .exists_] else []) flag (· ≠ .if_) := by
  cases flag with
  | false => exact accepts_peek_nil fun u hu => by rw [if_neg hu]
  | true =>
    apply accepts_peek_cons
    rw [if_pos rfl]
    apply accepts_advance (by simp)
    exact accepts_expect (by simp) (accepts_pure _ _)

theorem accepts_createGraph (name : String) (ifNotExists : Bool) :
    Accepts (parseCreateStatement debug) (GqlStatement.createGraph name ifNotExists).tokens
      (.createGraph name ifNotExists) (· ∈ statementEnds) := by
  have hrest : Accepts (parseCreateGraphRest debug)
      ((if ifNotExists then [.if_, .not, .exists_] else []) ++ [.ident name])
      (.createGraph name ifNotExists) (· ∈ statementEnds) := by
    apply (accepts_ifNotExists ifNotExists).bind
    · apply accepts_ident
      apply accepts_peek_nil
      intro u hu
      rw [if_neg (ne_of_mem_of_not_mem (show u ∈ statementEnds from hu) (by decide))]
    · exact fun _ _ => by simp
  apply accepts_expect (by simp)
  apply accepts_peek_cons
  rw [if_neg (by simp), if_pos rfl]
  apply accepts_advance (by simp)
  apply accepts_peek
  intro u _
  rw [if_neg (by cases ifNotExists <;> simp)]
  exact hrest

theorem accepts_dropGraph (name : String) (ifExists : Bool) :
    Accepts (parseDropStatement debug) (GqlStatement.dropGraph name ifExists).tokens
      (.dropGraph name ifExists) (· ∈ statementEnds) := by
  apply accepts_expect (by simp)
  apply accepts_peek_cons
  rw [if_neg (by simp), if_pos rfl]
  apply accepts_advance (by simp)
  apply (accepts_ifExists ifExists).bind
  · exact accepts_ident (accepts_pure _ _)
  · exact fun _ _ => by simp

theorem accepts_dropIndex (name : String) :
    Accepts (parseDropStatement debug) (GqlStatement.dropIndex name).tokens (.dropIndex name)
      (· ∈ statementEnds) := by
  apply accepts_expect (by simp)
  apply accepts_peek_cons
  rw [if_pos rfl]
  apply accepts_advance (by simp)
  apply (accepts_ifExists false).bind
  · exact accepts_identOrKeyword (accepts_pure _ _)
  · exact fun u _ => propertyToken_ne (by simp) rfl _

theorem accepts_listGraphs : Accepts (parseListStatement debug) GqlStatement.listGraphs.tokens
    .listGraphs (· ∈ statementEnds) := by
  apply accepts_expect (by simp)
  apply accepts_peek_cons
  rw [if_neg (by simp), if_pos (by decide)]
  exact accepts_advance (by simp) (accepts_pure _ _)

theorem accepts_indexEntity (label : Option String) (G : Token → Prop) :
    Accepts (parseIndexEntity debug)
      (.for_ :: .lParen :: .ident "v" :: indexLabelTokens label ++ [.rParen]) label G := by
  apply accepts_expect (by simp)
  apply accepts_expect (by simp)
  apply @accepts_identOrKeyword _ debug _ _ _ _ "v"
  cases label with
  | none =>
    apply accepts_peek_cons
    rw [if_neg (by simp)]
    exact accepts_expect (by simp) (accepts_pure _ _)
  | some label =>
    apply accepts_peek_cons
    rw [if_pos rfl]
    apply accepts_advance (by simp)
    apply accepts_identOrKeyword
    exact accepts_expect (by simp) (accepts_pure _ _)

theorem accepts_indexProperties {propertyNames : List String} (hne : propertyNames ≠ [])
    (G : Token → Prop) : Accepts (parseIndexProperties debug)
      (.on :: .lParen :: commaTokens (fun name => [propertyToken name]) propertyNames ++ [.rParen])
      propertyNames G := by
  have hproperty : ∀ name ∈ propertyNames,
      Accepts (parseIndexProperty debug) [propertyToken name] name (· ≠ .dot) := by
    intro name _
    apply accepts_identOrKeyword
    exact accepts_peek_nil fun u hu => by rw [if_neg hu]
  apply accepts_expect (by simp)
  apply accepts_expect (by simp)
  apply (accepts_commaItems hne hproperty (by simp) fun u hu => hu).bind
  · exact accepts_expect (by simp) (accepts_pure _ _)
  · exact fun _ _ => ⟨by simp, by simp⟩

theorem accepts_createIndex (name : String) (unique : Bool) (label : Option String)
    {propertyNames : List String} (hne : propertyNames ≠ []) : Accepts (parseCreateStatement debug)
      (GqlStatement.createIndex ⟨name, unique, "node", label, propertyNames⟩).tokens
      (.createIndex ⟨name, unique, "node", label, propertyNames⟩) (· ∈ statementEnds) := by
  have htokens : (GqlStatement.createIndex ⟨name, unique, "node", label, propertyNames⟩).tokens =
      .create :: (flagTokens .unique unique ++ .index :: propertyToken name ::
        ((.for_ :: .lParen :: .ident "v" :: indexLabelTokens label ++ [.rParen]) ++
          (.on :: .lParen :: commaTokens (fun name => [propertyToken name]) propertyNames ++
            [.rParen]))) := by
    simp [GqlStatement.tokens]
  have hrest : Accepts (parseCreateIndexRest debug) (flagTokens .unique unique ++ .index ::
      propertyToken name :: ((.for_ :: .lParen :: .ident "v" :: indexLabelTokens label ++ [.rParen]) ++
        (.on :: .lParen :: commaTokens (fun name => [propertyToken name]) propertyNames ++ [.rParen])))
      (.createIndex ⟨name, unique, "node", label, propertyNames⟩) (· ∈ statementEnds) := by
    apply (accepts_flag unique (by simp)).bind
    · apply accepts_expect (by simp)
      apply (accepts_ifNotExists false).bind
      · apply accepts_identOrKeyword
        apply (accepts_indexEntity label fun _ => True).bind
        · exact (accepts_indexProperties hne fun _ => True).map rfl fun _ _ => trivial
        · exact fun _ _ => trivial
      · exact fun u _ => propertyToken_ne (by simp) rfl _
    · exact fun _ _ => by simp
  rw [htokens]
  apply accepts_expect (by simp)
  apply accepts_peek
  intro u _
  rw [if_pos (by cases unique <;> simp [flagTokens])]
  exact hrest

theorem accepts_statement {statement : GqlStatement} (h : statement.Readable) :
    Accepts (parseStatement debug s) statement.tokens statement (· ∈ statementEnds) := by
  cases h with
  | matchStmt hne hp hw => exact accepts_peek_cons (accepts_matchStatement hne hp hw)
  | returnStmt distinct hne hi ht =>
    exact accepts_peek_cons (accepts_returnStatement distinct hne hi ht)
  | withStmt distinct hne hi hw ht =>
    exact accepts_peek_cons (accepts_withStatement distinct hne hi hw ht)
  | insert hne hp => exact accepts_peek_cons (accepts_insertStatement hne hp)
  | set hne hi => exact accepts_peek_cons (accepts_setStatement hne hi)
  | delete detach hne ht =>
    cases detach with
    | false => exact accepts_peek_cons (accepts_deleteStatement false hne ht)
    | true => exact accepts_peek_cons (accepts_deleteStatement true hne ht)
  | call procedure ha hy => exact accepts_peek_cons (accepts_callStatement procedure ha hy)
  | createGraph name ifNotExists => exact accepts_peek_cons (accepts_createGraph name ifNotExists)
  | dropGraph name ifExists => exact accepts_peek_cons (accepts_dropGraph name ifExists)
  | createIndex name unique label hne =>
    exact accepts_peek_cons (accepts_createIndex name unique label hne)
  | dropIndex name => exact accepts_peek_cons (accepts_dropIndex name)
  | listGraphs => exact accepts_peek_cons accepts_listGraphs

theorem GqlStatement.Readable.exists_head {statement : GqlStatement} (h : statement.Readable) :
    ∃ t us, statement.tokens = t :: us ∧ t ∈ statementBegins := by
  cases h with
  | delete detach =>
    cases detach with
    | false => exact ⟨.delete, _, rfl, by decide⟩
    | true => exact ⟨.detach, _, rfl, by decide⟩
  | _ => exact ⟨_, _, rfl, by decide⟩

/-- Behind a statement without a semicolon stands the next one, or nothing. -/
theorem Printed.headD {statements : List GqlStatement} {ts : List Token} (h : Printed statements ts)
    (hread : ∀ statement ∈ statements, statement.Readable) :
    (ts ++ [Token.eof]).headD .eof ∈ .eof :: statementBegins := by
  cases h with
  | nil => exact List.mem_cons_self
  | semicolon | bare =>
    obtain ⟨t, us, htokens, ht⟩ := (hread _ List.mem_cons_self).exists_head
    rw [htokens]
    exact List.mem_cons_of_mem _ ht

/-- One round of the loop: a statement, and what stands behind it. -/
theorem accepts_loopStep {statement : GqlStatement} {before after : List GqlStatement}
    {ts : List Token} (hread : statement.Readable)
    (hnext : (ts ++ [Token.eof]).headD .eof ∈ statementEnds)
    (hlater : Accepts (do
      let _ ← matchToken .semicolon
      statementLoop (parseStatement debug s) (before ++ [statement])) ts after (· = .eof)) :
    Accepts (statementLoop (parseStatement debug s) before) (statement.tokens ++ ts) after (· = .eof) := by
  have hbody : Accepts (do
      let next ← parseStatement debug s
      let _ ← matchToken .semicolon
      statementLoop (parseStatement debug s) (before ++ [next])) (statement.tokens ++ ts) after
      (· = .eof) := by
    apply (accepts_statement hread).bind hlater
    rintro u rfl
    exact hnext
  obtain ⟨t, us, htokens, ht⟩ := hread.exists_head
  have hgoes : t ≠ .eof := ne_of_mem_of_not_mem ht (by decide)
  rw [htokens] at hbody ⊢
  rw [statementLoop, atEnd, bind_assoc]
  apply accepts_peek_cons
  rw [pure_bind, if_neg (by simpa using hgoes)]
  exact hbody

theorem accepts_statementLoop {statements : List GqlStatement} {ts : List Token}
    (h : Printed statements ts) (hread : ∀ statement ∈ statements, statement.Readable)
    (before : List GqlStatement) :
    Accepts (statementLoop (parseStatement debug s) before) ts (before ++ statements) (· = .eof) := by
  induction h generalizing before with
  | nil =>
    rw [statementLoop, atEnd, bind_assoc, List.append_nil]
    apply accepts_peek_nil
    rintro u rfl
    rfl
  | @semicolon statement statements ts h ih =>
    have hlater := ih (fun b hb => hread b (List.mem_cons_of_mem _ hb)) (before ++ [statement])
    rw [List.append_assoc] at hlater
    apply accepts_loopStep (hread _ List.mem_cons_self) List.mem_cons_self
    exact accepts_match (by simp) hlater
  | @bare statement statements ts h ih =>
    have hreads : ∀ b ∈ statements, b.Readable := fun b hb => hread b (List.mem_cons_of_mem _ hb)
    have hlater := ih hreads (before ++ [statement])
    rw [List.append_assoc] at hlater
    have hhead := h.headD hreads
    apply accepts_loopStep (hread _ List.mem_cons_self) (List.mem_cons_of_mem _ hhead)
    apply accepts_match_other _ hlater
    rintro u rfl
    have hsemicolon : Token.semicolon ∉ .eof :: statementBegins := by decide
    exact ne_of_mem_of_not_mem hhead hsemicolon

end Statements

/-- On the tokens of a program, the parser answers the program. -/
theorem parse_tokens (debug : Token → String) {program : GqlProgram} {ts : List Token}
    (hprinted : Printed program.statements ts)
    (h : ∀ statement ∈ program.statements, statement.Readable) {tokens : List SpannedToken}
    (htokens : (Parser.new tokens).ahead = ts ++ [.eof]) :
    (Parser.parse debug (Parser.new tokens)).run.map (Except.map Prod.fst) =
      some (.ok program) := by
  obtain ⟨statements⟩ := program
  have hloop := @accepts_statementLoop debug (parseStatementAt debug (Parser.new tokens).tokens.length)
    _ _ hprinted h [] (Parser.new tokens) [.eof] htokens rfl rfl
  rw [Parser.parse, get_bind]
  show Option.map _ ((statementLoop (parseStatement debug _) [] >>= _) (Parser.new tokens)) = _
  rw [bind_of _ hloop]
  rfl

/-- However its tokens are laid out, with white space and comments between them, words in any case and
semicolons behind its statements or none, a program is read from its text. -/
theorem parse_renders (debug : Token → String) {program : GqlProgram} {ts : List Token}
    {input : String} (h : ∀ statement ∈ program.statements, statement.Readable)
    (hprinted : Printed program.statements ts) (hinput : Renders ts input.toList) :
    parse debug input = some (.ok program) := by
  obtain ⟨tokens, htokens, hahead⟩ := tokenize_renders hinput
  rw [parse, htokens]
  exact parse_tokens debug hprinted h hahead

theorem parse_renders_return : parse (fun _ => "") "list GRAPHS return /* one */ 1;" =
    some (.ok ⟨[.listGraphs, .returnStmt ⟨false, [⟨.literal (.integer 1), none⟩], none, none⟩]⟩) := by
  have hreturn : (GqlStatement.returnStmt
      ⟨false, [⟨.literal (.integer 1), none⟩], none, none⟩).Readable := by
    apply GqlStatement.Readable.returnStmt
    · simp
    · simp only [List.mem_singleton, forall_eq]
      exact .inr ⟨.literal rfl, by decide⟩
    · exact ⟨by simp, by simp⟩
  have hend : Renders [.semicolon] [';'] :=
    @Renders.token _ _ [] _ [] _ rfl (@Lexeme.punctuation ([';'], .semicolon, []) (by decide))
      (by simp) (.blank rfl)
  have hone : Renders [.integerLit 1, .semicolon] [' ', '1', ';'] :=
    @Renders.token _ _ [' '] ['1'] _ _ rfl (.integer rfl (by decide)) (by simp; decide) hend
  have hcomment : Renders [.integerLit 1, .semicolon] " /* one */ 1;".toList :=
    @Renders.blockComment _ [' '] " one ".toList _ rfl (by decide) hone
  have hword : Renders [.return_, .integerLit 1, .semicolon] " return /* one */ 1;".toList :=
    @Renders.token _ _ [' '] "return".toList _ _ rfl (.keyword (by decide) (by decide))
      (by simp; decide) hcomment
  have hgraphs : Renders [.ident "GRAPHS", .return_, .integerLit 1, .semicolon]
      " GRAPHS return /* one */ 1;".toList :=
    @Renders.token _ _ [' '] "GRAPHS".toList _ _ rfl (.ident (by decide) (by decide))
      (by simp; decide) hword
  apply parse_renders
  · intro statement hmem
    rcases List.mem_pair.mp hmem with rfl | rfl
    · exact .listGraphs
    · exact hreturn
  · exact .bare (.semicolon .nil)
  · exact @Renders.token _ _ [] "list".toList _ _ rfl (.keyword (by decide) (by decide))
      (by simp; decide) hgraphs

end Synaptica.Gql
