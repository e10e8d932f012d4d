import Synaptica.Gql.ExpressionEnds
import Synaptica.Gql.StatementParser

/-!
# Parsing a program ends

A statement ends wherever the statements nested in it do, and these have fewer tokens left; so a
statement ends as soon as it may nest as deep as there are tokens, and which levels are allowed beyond
that makes no difference. The loop over statements ends because each reads at least its keyword.
-/

namespace Synaptica.Gql

open Ending

section Ends

variable {tokens : List SpannedToken} {debug : Token → String} {s s' : ParseM GqlStatement}
  {p q : Parser} {α : Type}

/-! ## Items -/

theorem ends_itemLoop {separator : Token} {x y : ParseM α} (hsep : separator ≠ .eof)
    (hp : p.On tokens)
    (h : ∀ q, q.On tokens → p.Progress q → Ends tokens x y q fun _ r => q.Forward r)
    (items : List α) : Ends tokens (itemLoop separator x items) (itemLoop separator y items) p
      fun _ q => p.Forward q := by
  induction hleft : p.left using Nat.strongRecOn generalizing p items with
  | ind n ih =>
    rw [itemLoop, itemLoop]
    apply ends_match hp hsep
    · intro q hq hon
      apply (h q hon hq).pass hon
      intro next r hr hon'
      have hpr := hq.trans_forward hr
      have hlater : ∀ t, t.On tokens → r.Progress t → Ends tokens x y t fun _ u => t.Forward u :=
        fun t hont ht => h t hont (hpr.trans ht)
      apply (ih r.left (by rw [← hleft]; exact hpr.left_lt) hon' hlater (items ++ [next]) rfl).mono
      intro _ t ht
      exact (hpr.trans_forward ht).toForward
    · intro _
      exact .pure (.refl p)

theorem ends_commaItems {x y : ParseM α} (hp : p.On tokens)
    (h : ∀ q, q.On tokens → p.Forward q → Ends tokens x y q fun _ r => q.Forward r) :
    Ends tokens (commaItems x) (commaItems y) p fun _ q => p.Forward q := by
  apply (h p hp (.refl p)).pass hp
  intro first q hq hon
  apply (ends_itemLoop (by simp) hon _ [first]).mono
  · intro _ r hr
    exact hq.trans hr
  · intro r hon' hr
    exact h r hon' (hq.trans hr.toForward)

/-- Items the first of which reads something. -/
theorem ends_commaItems_read {x y : ParseM α} (hp : p.On tokens)
    (h : ∀ q, q.On tokens → p.Forward q → Ends tokens x y q fun _ r => q.Progress r) :
    Ends tokens (commaItems x) (commaItems y) p fun _ q => p.Progress q := by
  apply (h p hp (.refl p)).read hp
  intro first q hq hon
  apply (ends_itemLoop (by simp) hon _ [first]).mono
  · intro _ r hr
    exact hq.trans_forward hr
  · intro r hon' hr
    exact (h r hon' (hq.trans hr).toForward).mono fun _ _ ht => ht.toForward

theorem ends_matchToken {t : Token} (hp : p.On tokens) (ht : t ≠ .eof) :
    Ends tokens (matchToken t) (matchToken t) p fun _ q => p.Forward q := by
  have hstep : Ends tokens (matchToken t >>= pure) (matchToken t >>= pure) p
      fun _ q => p.Forward q := by
    apply ends_match hp ht
    · intro q hq _
      exact .pure hq.toForward
    · intro _
      exact .pure (.refl p)
  rwa [bind_pure] at hstep

/-- The forward half of an answer that reads something. -/
theorem Ends.forward {x y : ParseM α} (h : Ends tokens x y p fun _ q => p.Progress q) :
    Ends tokens x y p fun _ q => p.Forward q :=
  h.mono fun _ _ hq => hq.toForward

theorem Ends.after {x y : ParseM α} (h : Ends tokens x y q fun _ r => q.Forward r)
    (hpq : p.Progress q) : Ends tokens x y q fun _ r => p.Progress r :=
  h.mono fun _ _ hr => hpq.trans_forward hr

theorem NestedEnd.forward (h : NestedEnd tokens s s' p) (hpq : p.Forward q) :
    NestedEnd tokens s s' q := by
  intro r hon hlt
  exact h r hon (Nat.lt_of_lt_of_le hlt hpq.left_le)

theorem ends_parseExpression (hp : p.On tokens) (hs : NestedEnd tokens s s' p) :
    Ends tokens (parseExpression debug s) (parseExpression debug s') p fun _ q => p.Progress q :=
  (expressionsEnd hp hs).chain .or

/-! ## Schema statements -/

theorem ends_parseIfNotExists (hp : p.On tokens) :
    Ends tokens (parseIfNotExists debug) (parseIfNotExists debug) p fun _ q => p.Forward q := by
  apply ends_peek
  split
  · apply ends_advance hp (by simp [*])
    intro q hq hon
    apply ends_expect hon (by simp)
    intro r hr hon'
    apply ends_expect hon' (by simp)
    intro t ht _
    exact .pure ((hq.trans hr).trans ht).toForward
  · exact .pure (.refl p)

theorem ends_parseIfExists (hp : p.On tokens) :
    Ends tokens (parseIfExists debug) (parseIfExists debug) p fun _ q => p.Forward q := by
  apply ends_peek
  split
  · apply ends_advance hp (by simp [*])
    intro q hq hon
    apply ends_expect hon (by simp)
    intro r hr _
    exact .pure (hq.trans hr).toForward
  · exact .pure (.refl p)

theorem ends_parseIndexProperty (hp : p.On tokens) :
    Ends tokens (parseIndexProperty debug) (parseIndexProperty debug) p fun _ q => p.Progress q := by
  apply (ends_identOrKeyword hp).read hp
  intro first q hq hon
  apply ends_peek
  split
  · apply ends_advance hon (by simp [*])
    intro r hr hon'
    exact ((ends_identOrKeyword hon').forward).after (hq.trans hr)
  · exact .pure hq

theorem ends_parseIndexEntity (hp : p.On tokens) :
    Ends tokens (parseIndexEntity debug) (parseIndexEntity debug) p fun _ q => p.Progress q := by
  apply ends_expect hp (by simp)
  intro q hq hon
  apply ends_expect hon (by simp)
  intro r hr hon'
  apply (ends_identOrKeyword hon').read hon'
  intro _ t ht hont
  have hpt := (hq.trans hr).trans ht
  apply ends_peek
  split
  · apply ends_advance hont (by simp [*])
    intro u hu honu
    apply (ends_identOrKeyword honu).read honu
    intro label v hv honv
    apply ends_expect honv (by simp)
    intro w hw _
    exact .pure (((hpt.trans hu).trans hv).trans hw)
  · apply ends_expect hont (by simp)
    intro u hu _
    exact .pure (hpt.trans hu)

theorem ends_parseIndexProperties (hp : p.On tokens) :
    Ends tokens (parseIndexProperties debug) (parseIndexProperties debug) p
      fun _ q => p.Progress q := by
  apply ends_expect hp (by simp)
  intro q hq hon
  apply ends_expect hon (by simp)
  intro r hr hon'
  apply (ends_commaItems hon' fun t hont _ => (ends_parseIndexProperty hont).forward).pass hon'
  intro propertyNames t ht hon''
  apply ends_expect hon'' (by simp)
  intro u hu _
  exact .pure (((hq.trans hr).trans_forward ht).trans hu)

theorem ends_parseCreateIndexRest (hp : p.On tokens) :
    Ends tokens (parseCreateIndexRest debug) (parseCreateIndexRest debug) p
      fun _ q => p.Progress q := by
  apply (ends_matchToken hp (by simp)).pass hp
  intro unique q hq hon
  apply ends_expect hon (by simp)
  intro r hr honr
  apply (ends_parseIfNotExists honr).pass honr
  intro _ t ht hont
  apply (ends_identOrKeyword hont).read hont
  intro name u hu honu
  apply (ends_parseIndexEntity honu).read honu
  intro label v hv honv
  apply (ends_parseIndexProperties honv).read honv
  intro propertyNames w hw _
  exact .pure (((((hq.trans_progress hr).trans_forward ht).trans hu).trans hv).trans hw)

theorem ends_parsePropertyDecl (hp : p.On tokens) :
    Ends tokens (parsePropertyDecl debug) (parsePropertyDecl debug) p fun _ q => p.Progress q := by
  apply (ends_ident hp).read hp
  intro name q hq hon
  apply ends_expect hon (by simp)
  intro r hr honr
  apply (ends_ident honr).read honr
  intro propertyType t ht hont
  have hpt := (hq.trans hr).trans ht
  apply ends_peek
  split
  · apply ends_advance hont (by simp [*])
    intro u hu honu
    apply ends_expect honu (by simp)
    intro v hv _
    exact .pure ((hpt.trans hu).trans hv)
  · exact .pure hpt

theorem ends_propertyDeclLoop (hp : p.On tokens) (props : List PropertyDecl) :
    Ends tokens (propertyDeclLoop debug props) (propertyDeclLoop debug props) p
      fun _ q => p.Forward q := by
  induction hleft : p.left using Nat.strongRecOn generalizing p props with
  | ind n ih =>
    rw [propertyDeclLoop]
    apply ends_peek
    split
    · apply (ends_parsePropertyDecl hp).read hp
      intro prop q hq hon
      apply (ends_matchToken hon (by simp)).pass hon
      intro _ r hr hon'
      have hpr := hq.trans_forward hr
      apply (ih r.left (by rw [← hleft]; exact hpr.left_lt) hon' (props ++ [prop]) rfl).mono
      intro _ t ht
      exact (hpr.trans_forward ht).toForward
    · exact .pure (.refl p)

theorem ends_parsePropertyDecls (hp : p.On tokens) :
    Ends tokens (parsePropertyDecls debug) (parsePropertyDecls debug) p fun _ q => p.Progress q := by
  apply ends_expect hp (by simp)
  intro q hq hon
  apply (ends_propertyDeclLoop hon []).pass hon
  intro props r hr hon'
  apply ends_expect hon' (by simp)
  intro t ht _
  exact .pure ((hq.trans_forward hr).trans ht)

theorem ends_parseOptionalPropertyDecls (hp : p.On tokens) :
    Ends tokens (parseOptionalPropertyDecls debug) (parseOptionalPropertyDecls debug) p
      fun _ q => p.Forward q := by
  apply ends_peek
  split
  · exact (ends_parsePropertyDecls hp).forward
  · exact .pure (.refl p)

theorem ends_parseLabels (hp : p.On tokens) :
    Ends tokens (parseLabels debug) (parseLabels debug) p fun _ q => p.Forward q :=
  ends_itemLoop (by simp) hp (fun _ hon _ => (ends_ident hon).forward) []

theorem ends_parseNodeTypeDecl (hp : p.On tokens) :
    Ends tokens (parseNodeTypeDecl debug) (parseNodeTypeDecl debug) p fun _ q => p.Forward q := by
  apply (ends_parseLabels hp).pass hp
  intro labels q hq hon
  apply (ends_parseOptionalPropertyDecls hon).pass hon
  intro properties r hr _
  exact .pure (hq.trans hr)

theorem ends_parseEndpoint (hp : p.On tokens) {keyword : Token} (hkeyword : keyword ≠ .eof) :
    Ends tokens (parseEndpoint debug keyword) (parseEndpoint debug keyword) p
      fun _ q => p.Forward q := by
  apply ends_peek
  split
  · apply ends_advance hp (by rwa [‹p.peek = keyword›])
    intro q hq hon
    apply (ends_ident hon).read hon
    intro label r hr _
    exact .pure (hq.trans hr).toForward
  · exact .pure (.refl p)

theorem ends_parseEdgeTypeDecl (hp : p.On tokens) :
    Ends tokens (parseEdgeTypeDecl debug) (parseEdgeTypeDecl debug) p fun _ q => p.Forward q := by
  apply (ends_parseLabels hp).pass hp
  intro labels q hq hon
  apply (ends_parseEndpoint hon (by simp)).pass hon
  intro source r hr honr
  apply (ends_parseEndpoint honr (by simp)).pass honr
  intro destination t ht hont
  apply (ends_parseOptionalPropertyDecls hont).pass hont
  intro properties u hu _
  exact .pure (((hq.trans hr).trans ht).trans hu)

theorem ends_graphTypeLoop (hp : p.On tokens) (graphType : GraphType) :
    Ends tokens (graphTypeLoop debug graphType) (graphTypeLoop debug graphType) p
      fun _ q => p.Forward q := by
  induction hleft : p.left using Nat.strongRecOn generalizing p graphType with
  | ind n ih =>
    have hnext : ∀ (next : GraphType) (q : Parser), q.On tokens → p.Progress q → Ends tokens
        (do
          let _ ← matchToken .comma
          graphTypeLoop debug next)
        (do
          let _ ← matchToken .comma
          graphTypeLoop debug next) q fun _ r => p.Forward r := by
      intro next q hon hq
      apply (ends_matchToken hon (by simp)).pass hon
      intro _ r hr hon'
      have hpr := hq.trans_forward hr
      apply (ih r.left (by rw [← hleft]; exact hpr.left_lt) hon' next rfl).mono
      intro _ t ht
      exact (hpr.trans_forward ht).toForward
    rw [graphTypeLoop]
    apply ends_peek
    split
    · split
      · apply ends_advance hp (by simp [*])
        intro q hq hon
        apply (ends_parseNodeTypeDecl hon).pass hon
        intro nodeType r hr hon'
        exact hnext _ r hon' (hq.trans_forward hr)
      · split
        · apply ends_advance hp (by simp [*])
          intro q hq hon
          apply (ends_parseEdgeTypeDecl hon).pass hon
          intro edgeType r hr hon'
          exact hnext _ r hon' (hq.trans_forward hr)
        · exact ends_fail hp _
    · exact .pure (.refl p)

theorem ends_parseGraphTypeDef (hp : p.On tokens) :
    Ends tokens (parseGraphTypeDef debug) (parseGraphTypeDef debug) p fun _ q => p.Progress q := by
  apply ends_expect hp (by simp)
  intro q hq hon
  apply (ends_graphTypeLoop hon _).pass hon
  intro graphType r hr hon'
  apply ends_expect hon' (by simp)
  intro t ht _
  exact .pure ((hq.trans_forward hr).trans ht)

theorem ends_parseCreateGraphRest (hp : p.On tokens) :
    Ends tokens (parseCreateGraphRest debug) (parseCreateGraphRest debug) p
      fun _ q => p.Progress q := by
  apply (ends_parseIfNotExists hp).pass hp
  intro ifNotExists q hq hon
  apply (ends_ident hon).read hon
  intro name r hr hon'
  have hpr := hq.trans_progress hr
  apply ends_peek
  split
  · apply (ends_parseGraphTypeDef hon').read hon'
    intro _ t ht _
    exact .pure (hpr.trans ht)
  · exact .pure hpr

theorem ends_parseCreateGraphTypeRest (hp : p.On tokens) :
    Ends tokens (parseCreateGraphTypeRest debug) (parseCreateGraphTypeRest debug) p
      fun _ q => p.Progress q := by
  apply (ends_parseIfNotExists hp).pass hp
  intro _ q hq hon
  apply (ends_ident hon).read hon
  intro _ r hr hon'
  apply (ends_parseGraphTypeDef hon').read hon'
  intro _ t ht _
  exact .pure ((hq.trans_progress hr).trans ht)

theorem ends_parseCreateStatement (hp : p.On tokens) :
    Ends tokens (parseCreateStatement debug) (parseCreateStatement debug) p
      fun _ q => p.Progress q := by
  apply ends_expect hp (by simp)
  intro q hq hon
  apply ends_peek
  split
  · exact (ends_parseCreateIndexRest hon).forward.after hq
  · split
    · apply ends_advance hon (by simp [*])
      intro r hr hon'
      apply ends_peek
      split
      · apply ends_advance hon' (by simp [*])
        intro t ht hon''
        exact (ends_parseCreateGraphTypeRest hon'').forward.after ((hq.trans hr).trans ht)
      · exact (ends_parseCreateGraphRest hon').forward.after (hq.trans hr)
    · exact ends_fail hon _

theorem ends_parseDropStatement (hp : p.On tokens) :
    Ends tokens (parseDropStatement debug) (parseDropStatement debug) p fun _ q => p.Progress q := by
  apply ends_expect hp (by simp)
  intro q hq hon
  apply ends_peek
  split
  · apply ends_advance hon (by simp [*])
    intro r hr hon'
    apply (ends_parseIfExists hon').pass hon'
    intro _ t ht hont
    apply (ends_identOrKeyword hont).read hont
    intro name u hu _
    exact .pure (((hq.trans hr).trans_forward ht).trans hu)
  · split
    · apply ends_advance hon (by simp [*])
      intro r hr hon'
      apply (ends_parseIfExists hon').pass hon'
      intro ifExists t ht hont
      apply (ends_ident hont).read hont
      intro name u hu _
      exact .pure (((hq.trans hr).trans_forward ht).trans hu)
    · exact ends_fail hon _

theorem Token.ne_eof_of_isWord {t : Token} {words : List String} (h : t.isWord words) : t ≠ .eof := by
  rintro rfl
  cases h

theorem ends_parseListStatement (hp : p.On tokens) :
    Ends tokens (parseListStatement debug) (parseListStatement debug) p fun _ q => p.Progress q := by
  apply ends_expect hp (by simp)
  intro q hq hon
  apply ends_peek
  split
  · apply ends_advance hon (by simp [*])
    intro r hr hon'
    apply ends_peek
    split
    · apply ends_advance hon' (Token.ne_eof_of_isWord ‹_›)
      intro t ht _
      exact .pure ((hq.trans hr).trans ht)
    · exact .pure (hq.trans hr)
  · split
    · apply ends_advance hon (Token.ne_eof_of_isWord ‹_›)
      intro r hr _
      exact .pure (hq.trans hr)
    · exact ends_fail hon _

/-! ## Targets and quantifiers -/

theorem ends_targetLoop (hp : p.On tokens) (expr : Expression) :
    Ends tokens (targetLoop debug expr) (targetLoop debug expr) p fun _ q => p.Forward q := by
  induction hleft : p.left using Nat.strongRecOn generalizing p expr with
  | ind n ih =>
    rw [targetLoop]
    apply ends_match hp (by simp)
    · intro q hq hon
      apply (ends_identOrKeyword hon).read hon
      intro property r hr hon'
      have hpr := hq.trans hr
      apply (ih r.left (by rw [← hleft]; exact hpr.left_lt) hon' _ rfl).mono
      intro _ t ht
      exact (hpr.trans_forward ht).toForward
    · intro _
      exact .pure (.refl p)

theorem ends_parseTargetExpr (hp : p.On tokens) :
    Ends tokens (parseTargetExpr debug) (parseTargetExpr debug) p fun _ q => p.Progress q := by
  apply (ends_ident hp).read hp
  intro name q hq hon
  exact (ends_targetLoop hon _).after hq

theorem ends_parseRemoveItem (hp : p.On tokens) :
    Ends tokens (parseRemoveItem debug) (parseRemoveItem debug) p fun _ q => p.Progress q := by
  apply (ends_parseTargetExpr hp).read hp
  intro target q hq hon
  apply ends_match hon (by simp)
  · intro r hr hon'
    apply (ends_ident hon').read hon'
    intro _ t ht _
    exact .pure ((hq.trans hr).trans ht)
  · intro _
    cases target with
    | propertyAccess object property => exact .pure hq
    | _ => exact ends_fail hon _

theorem ends_parseRemoveStatement (hp : p.On tokens) :
    Ends tokens (parseRemoveStatement debug) (parseRemoveStatement debug) p
      fun _ q => p.Progress q := by
  apply ends_expect hp (by simp)
  intro q hq hon
  apply (ends_commaItems hon fun r hon' _ => (ends_parseRemoveItem hon').forward).pass hon
  intro _ r hr _
  exact .pure (hq.trans_forward hr)

theorem ends_parseBound (hp : p.On tokens) (message : String) :
    Ends tokens (parseBound message) (parseBound message) p fun _ q => p.Forward q := by
  apply ends_peek
  cases hpeek : p.peek with
  | integerLit n =>
    apply ends_advance hp (by simp [hpeek])
    intro q hq hon
    by_cases hneg : n < 0
    · rw [if_pos hneg]
      exact ends_fail hon _
    · rw [if_neg hneg]
      exact .pure hq.toForward
  | _ => exact .pure (.refl p)

theorem ends_parseMaxBound (hp : p.On tokens) (min : Option Nat) :
    Ends tokens (parseMaxBound min) (parseMaxBound min) p fun _ q => p.Forward q := by
  apply ends_match hp (by simp)
  · intro q hq hon
    exact (ends_parseBound hon _).mono fun _ _ hr => hq.toForward.trans hr
  · intro _
    exact .pure (.refl p)

theorem ends_quantifierBegins :
    Ends tokens quantifierBegins quantifierBegins p fun b q => q = p ∧ (b → p.peek = .lBrace) := by
  apply ends_peek
  by_cases hbrace : p.peek = .lBrace
  · rw [if_pos hbrace]
    apply ends_get
    rcases p.peekAt 1 with _ | t
    · exact .pure ⟨rfl, fun _ => hbrace⟩
    · cases t <;> exact .pure ⟨rfl, fun _ => hbrace⟩
  · rw [if_neg hbrace]
    exact .pure ⟨rfl, by simp⟩

theorem ends_parseOptionalQuantifier (hp : p.On tokens) :
    Ends tokens (parseOptionalQuantifier debug) (parseOptionalQuantifier debug) p
      fun _ q => p.Forward q := by
  apply ends_quantifierBegins.bind
  rintro b q ⟨rfl, hbrace⟩
  cases b with
  | false => exact .pure (.refl q)
  | true =>
    apply ends_advance hp (by simp [hbrace rfl])
    intro r hr hon
    apply (ends_parseBound hon _).pass hon
    intro min t ht hont
    apply (ends_parseMaxBound hont min).pass hont
    intro max u hu honu
    split
    · exact ends_fail honu _
    · apply ends_expect honu (by simp)
      intro v hv _
      exact .pure (((hr.trans_forward ht).trans_forward hu).trans hv).toForward

theorem ends_parseOptionalPathMode :
    Ends tokens parseOptionalPathMode parseOptionalPathMode p fun _ q => p.Forward q := by
  apply ends_peek
  split
  next hmode =>
    have hpeek : p.peek ≠ .eof := by
      rcases hmode with h | h | h | h <;> simp [h]
    exact .of_value (advance_of_peek hpeek) (advance_of_peek hpeek)
      (Parser.progress_skip_one hpeek).toForward
  · exact .pure (.refl p)

theorem ends_isEdgeStart :
    Ends tokens isEdgeStart isEdgeStart p fun b q => q = p ∧ (b → p.peek ≠ .eof) := by
  apply ends_peek
  cases hpeek : p.peek with
  | leftArrow => exact .pure ⟨rfl, by simp⟩
  | arrow => exact .pure ⟨rfl, by simp⟩
  | minus =>
    apply ends_get
    exact .pure ⟨rfl, by simp⟩
  | _ => exact .pure ⟨rfl, by simp⟩

theorem ends_parsePatternVariable (hp : p.On tokens) (close : Token) :
    Ends tokens (parsePatternVariable debug close) (parsePatternVariable debug close) p
      fun _ q => p.Forward q := by
  apply ends_peek
  split
  · apply ends_get
    dsimp only
    split
    · apply (ends_ident hp).read hp
      intro name q hq _
      exact .pure hq.toForward
    · exact .pure (.refl p)
  · exact .pure (.refl p)

/-! ## Patterns -/

theorem ends_parsePropertyEntry (hp : p.On tokens) (hs : NestedEnd tokens s s' p) :
    Ends tokens (parsePropertyEntry debug s) (parsePropertyEntry debug s') p
      fun _ q => p.Progress q := by
  apply (ends_identOrKeyword hp).read hp
  intro key q hq hon
  apply ends_expect hon (by simp)
  intro r hr honr
  have hpr := hq.trans hr
  apply (ends_parseExpression honr (hs.forward hpr.toForward)).read honr
  intro value t ht _
  exact .pure (hpr.trans ht)

theorem ends_parsePropertyMap (hp : p.On tokens) (hs : NestedEnd tokens s s' p) :
    Ends tokens (parsePropertyMap debug s) (parsePropertyMap debug s') p
      fun _ q => p.Progress q := by
  apply ends_expect hp (by simp)
  intro q hq hon
  apply ends_peek
  apply EndAlike.ite
  · intro _
    have hentry : ∀ r, r.On tokens → q.Forward r → Ends tokens (parsePropertyEntry debug s)
        (parsePropertyEntry debug s') r fun _ t => r.Forward t :=
      fun r honr hr => (ends_parsePropertyEntry honr (hs.forward (hq.trans_forward hr).toForward)).forward
    apply (ends_commaItems hon hentry).pass hon
    intro props r hr honr
    apply ends_expect honr (by simp)
    intro t ht _
    exact .pure ((hq.trans_forward hr).trans ht)
  · intro _
    apply ends_expect hon (by simp)
    intro t ht _
    exact .pure (hq.trans ht)

theorem ends_parsePatternInternals (hp : p.On tokens) (hs : NestedEnd tokens s s' p)
    (close : Token) : Ends tokens (parsePatternInternals debug s close)
      (parsePatternInternals debug s' close) p fun _ q => p.Forward q := by
  apply (ends_parsePatternVariable hp close).pass hp
  intro var q hq hon
  apply (ends_parseLabels hon).pass hon
  intro labels r hr honr
  have hpr := hq.trans hr
  apply ends_peek
  apply EndAlike.ite
  · intro _
    apply (ends_parsePropertyMap honr (hs.forward hpr)).read honr
    intro properties t ht _
    exact .pure (hpr.trans ht.toForward)
  · intro _
    exact .pure hpr

theorem ends_parseNodePattern (hp : p.On tokens) (hs : NestedEnd tokens s s' p) :
    Ends tokens (parseNodePattern debug s) (parseNodePattern debug s') p
      fun _ q => p.Progress q := by
  apply ends_expect hp (by simp)
  intro q hq hon
  apply (ends_parsePatternInternals hon (hs.forward hq.toForward) _).pass hon
  intro internals r hr honr
  apply ends_expect honr (by simp)
  intro t ht _
  exact .pure ((hq.trans_forward hr).trans ht)

/-- The quantifier behind an edge, and the edge it completes. -/
theorem ends_edgeQuantifier (hq : q.On tokens) (hpq : p.Progress q) (e : EdgePattern) :
    Ends tokens
      (do
        let _ ← parseOptionalQuantifier debug
        return e)
      (do
        let _ ← parseOptionalQuantifier debug
        return e) q fun _ r => p.Progress r := by
  apply (ends_parseOptionalQuantifier hq).pass hq
  intro _ r hr _
  exact .pure (hpq.trans_forward hr)

theorem ends_parseEdgePattern (hp : p.On tokens) (hs : NestedEnd tokens s s' p) :
    Ends tokens (parseEdgePattern debug s) (parseEdgePattern debug s') p
      fun _ q => p.Progress q := by
  apply ends_peek
  apply EndAlike.ite
  · intro hleft
    apply ends_advance hp (by simp [hleft])
    intro q hq hon
    apply ends_peek
    apply EndAlike.ite
    · intro hbracket
      apply ends_advance hon (by simp [hbracket])
      intro r hr honr
      have hpr := hq.trans hr
      apply (ends_parsePatternInternals honr (hs.forward hpr.toForward) _).pass honr
      intro internals t ht hont
      apply ends_expect hont (by simp)
      intro u hu honu
      apply ends_expect honu (by simp)
      intro v hv honv
      exact ends_edgeQuantifier honv (((hpr.trans_forward ht).trans hu).trans hv) _
    · intro _
      exact ends_edgeQuantifier hon hq _
  · intro _
    apply EndAlike.ite
    · intro harrow
      apply ends_advance hp (by simp [harrow])
      intro q hq hon
      exact ends_edgeQuantifier hon hq _
    · intro _
      apply EndAlike.ite
      · intro hminus
        apply ends_advance hp (by simp [hminus])
        intro q hq hon
        apply ends_expect hon (by simp)
        intro r hr honr
        have hpr := hq.trans hr
        apply (ends_parsePatternInternals honr (hs.forward hpr.toForward) _).pass honr
        intro internals t ht hont
        apply ends_expect hont (by simp)
        intro u hu honu
        have hpu := (hpr.trans_forward ht).trans hu
        apply ends_match honu (by simp)
        · intro v hv honv
          exact ends_edgeQuantifier honv (hpu.trans hv) _
        · intro _
          apply ends_expect honu (by simp)
          intro v hv honv
          exact ends_edgeQuantifier honv (hpu.trans hv) _
      · intro _
        exact ends_fail hp _

theorem ends_parseOptionalNode (hp : p.On tokens) (hs : NestedEnd tokens s s' p) :
    Ends tokens (parseOptionalNode debug s) (parseOptionalNode debug s') p
      fun _ q => p.Forward q := by
  apply ends_peek
  apply EndAlike.ite
  · intro _
    apply (ends_parseNodePattern hp hs).read hp
    intro node q hq _
    exact .pure hq.toForward
  · intro _
    exact .pure (.refl p)

theorem ends_edgeLoop (hp : p.On tokens) (hs : NestedEnd tokens s s' p)
    (elements : List PatternElement) : Ends tokens (edgeLoop debug s elements)
      (edgeLoop debug s' elements) p fun _ q => p.Forward q := by
  induction hleft : p.left using Nat.strongRecOn generalizing p elements with
  | ind n ih =>
    rw [edgeLoop, edgeLoop]
    apply ends_isEdgeStart.bind
    rintro b q ⟨rfl, -⟩
    cases b with
    | false => exact .pure (.refl q)
    | true =>
      apply (ends_parseEdgePattern hp hs).read hp
      intro edge r hr honr
      apply (ends_parseOptionalNode honr (hs.forward hr.toForward)).pass honr
      intro node t ht hont
      have hqt := hr.trans_forward ht
      apply (ih t.left (by rw [← hleft]; exact hqt.left_lt) hont (hs.forward hqt.toForward) _ rfl).mono
      intro _ u hu
      exact (hqt.trans_forward hu).toForward

theorem ends_parsePathPattern (hp : p.On tokens) (hs : NestedEnd tokens s s' p) :
    Ends tokens (parsePathPattern debug s) (parsePathPattern debug s') p
      fun _ q => p.Forward q := by
  apply ends_parseOptionalPathMode.pass hp
  intro _ q hq hon
  apply (ends_parseOptionalNode hon (hs.forward hq)).pass hon
  intro first r hr honr
  have hpr := hq.trans hr
  apply (ends_edgeLoop honr (hs.forward hpr) first).pass honr
  intro elements t ht hont
  apply (ends_parseOptionalQuantifier hont).pass hont
  intro _ u hu _
  exact .pure ((hpr.trans ht).trans hu)

theorem ends_parseGraphPattern (hp : p.On tokens) (hs : NestedEnd tokens s s' p) :
    Ends tokens (parseGraphPattern debug s) (parseGraphPattern debug s') p fun _ q => p.Forward q :=
  ends_commaItems hp fun _ hon hq => ends_parsePathPattern hon (hs.forward hq)

/-! ## Clauses -/

theorem ends_parseOptionalClause (hp : p.On tokens) (hs : NestedEnd tokens s s' p)
    {keyword : Token} (hkeyword : keyword ≠ .eof) : Ends tokens (parseOptionalClause debug s keyword)
      (parseOptionalClause debug s' keyword) p fun _ q => p.Forward q := by
  apply ends_match hp hkeyword
  · intro q hq hon
    apply (ends_parseExpression hon (hs.forward hq.toForward)).read hon
    intro e r hr _
    exact .pure (hq.trans hr).toForward
  · intro _
    exact .pure (.refl p)

theorem ends_parseOptionalWhere (hp : p.On tokens) (hs : NestedEnd tokens s s' p) :
    Ends tokens (parseOptionalWhere debug s) (parseOptionalWhere debug s') p
      fun _ q => p.Forward q := by
  apply ends_peek
  apply EndAlike.ite
  · intro _
    have hclause : Ends tokens (parseWhereClause debug s) (parseWhereClause debug s') p
        fun _ q => p.Progress q := by
      apply ends_expect hp (by simp)
      intro q hq hon
      exact (ends_parseExpression hon (hs.forward hq.toForward)).forward.after hq
    apply hclause.read hp
    intro condition q hq _
    exact .pure hq.toForward
  · intro _
    exact .pure (.refl p)

theorem ends_parseOrderByItem (hp : p.On tokens) (hs : NestedEnd tokens s s' p) :
    Ends tokens (parseOrderByItem debug s) (parseOrderByItem debug s') p
      fun _ q => p.Progress q := by
  apply (ends_parseExpression hp hs).read hp
  intro expression q hq hon
  apply ends_match hon (by simp)
  · intro r hr _
    exact .pure (hq.trans hr)
  · intro _
    apply (ends_matchToken hon (by simp)).pass hon
    intro _ r hr _
    exact .pure (hq.trans_forward hr)

/-- The items behind two keywords. -/
theorem ends_behindKeywords {x y : ParseM α} {first second : Token} (hp : p.On tokens)
    (hfirst : first ≠ .eof) (hsecond : second ≠ .eof)
    (h : ∀ q, q.On tokens → p.Progress q → Ends tokens x y q fun _ r => q.Progress r) :
    Ends tokens
      (do
        expect debug first
        expect debug second
        x)
      (do
        expect debug first
        expect debug second
        y) p fun _ q => p.Progress q := by
  apply ends_expect hp hfirst
  intro q hq hon
  apply ends_expect hon hsecond
  intro r hr honr
  exact (h r honr (hq.trans hr)).forward.after (hq.trans hr)

theorem ends_parseOptionalOrderBy (hp : p.On tokens) (hs : NestedEnd tokens s s' p) :
    Ends tokens (parseOptionalOrderBy debug s) (parseOptionalOrderBy debug s') p
      fun _ q => p.Forward q := by
  apply ends_peek
  apply EndAlike.ite
  · intro _
    have hclause : Ends tokens (parseOrderByClause debug s) (parseOrderByClause debug s') p
        fun _ q => p.Progress q := by
      apply ends_behindKeywords hp (by simp) (by simp)
      intro q hon hq
      apply ends_commaItems_read hon
      intro r honr hr
      exact ends_parseOrderByItem honr (hs.forward (hq.trans_forward hr).toForward)
    apply hclause.read hp
    intro items q hq _
    exact .pure hq.toForward
  · intro _
    exact .pure (.refl p)

theorem ends_parseOptionalGroupBy (hp : p.On tokens) (hs : NestedEnd tokens s s' p) :
    Ends tokens (parseOptionalGroupBy debug s) (parseOptionalGroupBy debug s') p
      fun _ q => p.Forward q := by
  apply ends_peek
  apply EndAlike.ite
  · intro _
    have hclause : Ends tokens (parseGroupByClause debug s) (parseGroupByClause debug s') p
        fun _ q => p.Progress q := by
      apply ends_behindKeywords hp (by simp) (by simp)
      intro q hon hq
      apply ends_commaItems_read hon
      intro r honr hr
      exact ends_parseExpression honr (hs.forward (hq.trans_forward hr).toForward)
    apply hclause.read hp
    intro expressions q hq _
    exact .pure hq.toForward
  · intro _
    exact .pure (.refl p)

theorem ends_parseLimitOffset (hp : p.On tokens) (hs : NestedEnd tokens s s' p) :
    Ends tokens (parseLimitOffset debug s) (parseLimitOffset debug s') p fun _ q => p.Forward q := by
  apply (ends_parseOptionalClause hp hs (by simp)).pass hp
  intro limit q hq hon
  apply (ends_parseOptionalClause hon (hs.forward hq) (by simp)).pass hon
  intro offset r hr _
  split <;> exact .pure (hq.trans hr)

theorem ends_parseReturnItem (hp : p.On tokens) (hs : NestedEnd tokens s s' p) :
    Ends tokens (parseReturnItem debug s) (parseReturnItem debug s') p fun _ q => p.Progress q := by
  apply (ends_parseExpression hp hs).read hp
  intro expression q hq hon
  apply ends_match hon (by simp)
  · intro r hr honr
    apply (ends_identOrKeyword honr).read honr
    intro aliasName t ht _
    exact .pure ((hq.trans hr).trans ht)
  · intro _
    exact .pure hq

theorem ends_parseReturnItems (hp : p.On tokens) (hs : NestedEnd tokens s s' p) :
    Ends tokens (parseReturnItems debug s) (parseReturnItems debug s') p fun _ q => p.Progress q :=
  ends_commaItems_read hp fun _ hon hq => ends_parseReturnItem hon (hs.forward hq)

/-! ## Statements -/

theorem ends_maybeParseComposite (hp : p.On tokens) (hs : NestedEnd tokens s s' p)
    (first : GqlStatement) : Ends tokens (maybeParseComposite s first) (maybeParseComposite s' first) p
      fun _ q => p.Forward q := by
  apply ends_peek
  by_cases hop : p.peek = .union ∨ p.peek = .intersect ∨ p.peek = .except
  · have hpeek : p.peek ≠ .eof := by
      rcases hop with h | h | h <;> simp [h]
    rw [if_pos hop, if_pos hop]
    apply ends_advance hp hpeek
    intro q hq hon
    apply ends_enter hon
    apply (ends_matchToken hon.deeper (by simp)).pass hon.deeper
    intro _ r hr honr
    have hlt : r.left < p.left := Nat.lt_of_le_of_lt hr.left_le hq.left_lt
    apply (hs r honr hlt).read honr
    intro _ t ht _
    apply ends_exit (hr.trans_progress ht)
    intro u hu
    exact .pure (hq.trans hu).toForward
  · rw [if_neg hop, if_neg hop]
    exact .pure (.refl p)

theorem ends_parseMatchStatement (hp : p.On tokens) (hs : NestedEnd tokens s s' p) :
    Ends tokens (parseMatchStatement debug s) (parseMatchStatement debug s') p
      fun _ q => p.Progress q := by
  apply ends_expect hp (by simp)
  intro q hq hon
  apply (ends_parseGraphPattern hon (hs.forward hq.toForward)).pass hon
  intro paths r hr honr
  have hpr := hq.trans_forward hr
  apply (ends_parseOptionalWhere honr (hs.forward hpr.toForward)).pass honr
  intro whereClause t ht hont
  have hpt := hpr.trans_forward ht
  apply (ends_parseOptionalOrderBy hont (hs.forward hpt.toForward)).pass hont
  intro _ u hu honu
  have hpu := hpt.trans_forward hu
  apply (ends_parseLimitOffset honu (hs.forward hpu.toForward)).pass honu
  intro _ v hv honv
  have hpv := hpu.trans_forward hv
  exact (ends_maybeParseComposite honv (hs.forward hpv.toForward) _).after hpv

theorem ends_parseReturnStatement (hp : p.On tokens) (hs : NestedEnd tokens s s' p) :
    Ends tokens (parseReturnStatement debug s) (parseReturnStatement debug s') p
      fun _ q => p.Progress q := by
  apply ends_expect hp (by simp)
  intro q hq hon
  apply (ends_matchToken hon (by simp)).pass hon
  intro distinct r hr honr
  have hpr := hq.trans_forward hr
  apply (ends_parseReturnItems honr (hs.forward hpr.toForward)).read honr
  intro items t ht hont
  have hpt := hpr.trans ht
  apply (ends_parseOptionalGroupBy hont (hs.forward hpt.toForward)).pass hont
  intro _ u hu honu
  have hpu := hpt.trans_forward hu
  apply (ends_parseOptionalClause honu (hs.forward hpu.toForward) (by simp)).pass honu
  intro _ v hv honv
  have hpv := hpu.trans_forward hv
  apply (ends_parseOptionalOrderBy honv (hs.forward hpv.toForward)).pass honv
  intro orderBy w hw honw
  have hpw := hpv.trans_forward hw
  apply (ends_parseLimitOffset honw (hs.forward hpw.toForward)).pass honw
  intro limitOffset x hx honx
  have hpx := hpw.trans_forward hx
  exact (ends_maybeParseComposite honx (hs.forward hpx.toForward) _).after hpx

theorem ends_parseWithStatement (hp : p.On tokens) (hs : NestedEnd tokens s s' p) :
    Ends tokens (parseWithStatement debug s) (parseWithStatement debug s') p
      fun _ q => p.Progress q := by
  apply ends_expect hp (by simp)
  intro q hq hon
  apply (ends_matchToken hon (by simp)).pass hon
  intro distinct r hr honr
  have hpr := hq.trans_forward hr
  apply (ends_parseReturnItems honr (hs.forward hpr.toForward)).read honr
  intro items t ht hont
  have hpt := hpr.trans ht
  apply (ends_parseOptionalWhere hont (hs.forward hpt.toForward)).pass hont
  intro whereClause u hu honu
  have hpu := hpt.trans_forward hu
  apply (ends_parseOptionalOrderBy honu (hs.forward hpu.toForward)).pass honu
  intro orderBy v hv honv
  have hpv := hpu.trans_forward hv
  apply (ends_parseLimitOffset honv (hs.forward hpv.toForward)).pass honv
  intro limitOffset w hw _
  exact .pure (hpv.trans_forward hw)

theorem ends_parseArguments (hp : p.On tokens) (hs : NestedEnd tokens s s' p) :
    Ends tokens (parseArguments debug s) (parseArguments debug s') p fun _ q => p.Forward q := by
  apply ends_match hp (by simp)
  · intro q hq hon
    apply ends_peek
    by_cases hclose : q.peek ≠ .rParen
    · have harg : ∀ r, r.On tokens → q.Forward r → Ends tokens (parseExpression debug s)
          (parseExpression debug s') r fun _ t => r.Progress t :=
        fun r honr hr => ends_parseExpression honr (hs.forward (hq.trans_forward hr).toForward)
      rw [if_pos hclose, if_pos hclose]
      apply (ends_commaItems_read hon harg).read hon
      intro args r hr honr
      apply ends_expect honr (by simp)
      intro t ht _
      exact .pure ((hq.trans hr).trans ht).toForward
    · rw [if_neg hclose, if_neg hclose]
      apply ends_expect hon (by simp)
      intro r hr _
      exact .pure (hq.trans hr).toForward
  · intro _
    exact .pure (.refl p)

theorem ends_parseCallStatement (hp : p.On tokens) (hs : NestedEnd tokens s s' p) :
    Ends tokens (parseCallStatement debug s) (parseCallStatement debug s') p
      fun _ q => p.Progress q := by
  apply ends_expect hp (by simp)
  intro q hq hon
  apply (ends_ident hon).read hon
  intro first r hr honr
  apply (ends_itemLoop (by simp) honr (fun _ h _ => (ends_ident h).forward) []).pass honr
  intro parts t ht hont
  have hpt := (hq.trans hr).trans_forward ht
  apply (ends_parseArguments hont (hs.forward hpt.toForward)).pass hont
  intro arguments u hu honu
  have hpu := hpt.trans_forward hu
  apply ends_match honu (by simp)
  · intro v hv honv
    apply (ends_commaItems_read honv fun _ h _ => ends_ident h).read honv
    intro items w hw _
    exact .pure ((hpu.trans hv).trans hw)
  · intro _
    exact .pure hpu

theorem ends_parseInsertStatement (hp : p.On tokens) (hs : NestedEnd tokens s s' p) :
    Ends tokens (parseInsertStatement debug s) (parseInsertStatement debug s') p
      fun _ q => p.Progress q := by
  apply ends_expect hp (by simp)
  intro q hq hon
  apply (ends_parseGraphPattern hon (hs.forward hq.toForward)).pass hon
  intro patterns r hr _
  exact .pure (hq.trans_forward hr)

theorem ends_parseSetItem (hp : p.On tokens) (hs : NestedEnd tokens s s' p) :
    Ends tokens (parseSetItem debug s) (parseSetItem debug s') p fun _ q => p.Progress q := by
  apply (ends_parseTargetExpr hp).read hp
  intro target q hq hon
  apply ends_match hon (by simp)
  · intro r hr honr
    apply (ends_ident honr).read honr
    intro label t ht _
    exact .pure ((hq.trans hr).trans ht)
  · intro _
    apply ends_match hon (by simp)
    · intro r hr honr
      have hpr := hq.trans hr
      apply (ends_parseExpression honr (hs.forward hpr.toForward)).read honr
      intro value t ht _
      cases target <;> exact .pure (hpr.trans ht)
    · intro _
      exact ends_fail hon _

theorem ends_parseSetStatement (hp : p.On tokens) (hs : NestedEnd tokens s s' p) :
    Ends tokens (parseSetStatement debug s) (parseSetStatement debug s') p
      fun _ q => p.Progress q := by
  apply ends_expect hp (by simp)
  intro q hq hon
  have hitem : ∀ r, r.On tokens → q.Forward r → Ends tokens (parseSetItem debug s)
      (parseSetItem debug s') r fun _ t => r.Progress t :=
    fun r honr hr => ends_parseSetItem honr (hs.forward (hq.trans_forward hr).toForward)
  apply (ends_commaItems_read hon hitem).read hon
  intro items r hr _
  exact .pure (hq.trans hr)

theorem ends_parseDeleteStatement (hp : p.On tokens) (hs : NestedEnd tokens s s' p) :
    Ends tokens (parseDeleteStatement debug s) (parseDeleteStatement debug s') p
      fun _ q => p.Progress q := by
  apply (ends_matchToken hp (by simp)).pass hp
  intro detach q hq hon
  apply ends_expect hon (by simp)
  intro r hr honr
  have hpr := hq.trans_progress hr
  have htarget : ∀ t, t.On tokens → r.Forward t → Ends tokens (parseExpression debug s)
      (parseExpression debug s') t fun _ u => t.Progress u :=
    fun t hont ht => ends_parseExpression hont (hs.forward (hpr.trans_forward ht).toForward)
  apply (ends_commaItems_read honr htarget).read honr
  intro targets t ht _
  exact .pure (hpr.trans ht)

/-- A statement ends where the statements nested in it do. -/
theorem ends_parseStatement (hp : p.On tokens) (hs : NestedEnd tokens s s' p) :
    Ends tokens (parseStatement debug s) (parseStatement debug s') p fun _ q => p.Progress q := by
  apply ends_peek
  apply EndAlike.ite
  · exact fun _ => ends_parseMatchStatement hp hs
  intro _
  apply EndAlike.ite
  · intro hoptional
    apply ends_advance hp (by simp [hoptional])
    intro q hq hon
    exact (ends_parseMatchStatement hon (hs.forward hq.toForward)).forward.after hq
  intro _
  apply EndAlike.ite
  · exact fun _ => ends_parseReturnStatement hp hs
  intro _
  apply EndAlike.ite
  · exact fun _ => ends_parseWithStatement hp hs
  intro _
  apply EndAlike.ite
  · exact fun _ => ends_parseCallStatement hp hs
  intro _
  apply EndAlike.ite
  · exact fun _ => ends_parseInsertStatement hp hs
  intro _
  apply EndAlike.ite
  · exact fun _ => ends_parseSetStatement hp hs
  intro _
  apply EndAlike.ite
  · exact fun _ => ends_parseDeleteStatement hp hs
  intro _
  apply EndAlike.ite
  · exact fun _ => ends_parseRemoveStatement hp
  intro _
  apply EndAlike.ite
  · exact fun _ => ends_parseCreateStatement hp
  intro _
  apply EndAlike.ite
  · exact fun _ => ends_parseDropStatement hp
  intro _
  apply EndAlike.ite
  · exact fun _ => ends_parseListStatement hp
  · exact fun _ => ends_fail hp _

/-- With more levels of nesting than tokens left a statement ends, and how many more makes no
difference. -/
theorem ends_parseStatementAt {n m : Nat} (hp : p.On tokens) (hn : p.left < n) (hm : p.left < m) :
    Ends tokens (parseStatementAt debug n) (parseStatementAt debug m) p fun _ q => p.Progress q := by
  induction n generalizing m p with
  | zero => exact absurd hn (Nat.not_lt_zero _)
  | succ n ih =>
    obtain ⟨m, rfl⟩ := Nat.exists_eq_add_one_of_ne_zero (Nat.ne_zero_of_lt hm)
    apply ends_parseStatement hp
    intro q hon hlt
    exact ih hon (by omega) (by omega)

/-! ## Programs -/

theorem ends_statementLoop {n m : Nat} (hp : p.On tokens) (hn : p.left < n) (hm : p.left < m)
    (statements : List GqlStatement) : Ends tokens (statementLoop (parseStatementAt debug n) statements)
      (statementLoop (parseStatementAt debug m) statements) p
        fun _ q => p.Forward q ∧ q.peek = .eof := by
  induction hleft : p.left using Nat.strongRecOn generalizing p statements with
  | ind k ih =>
    rw [statementLoop, statementLoop]
    have hend : Ends tokens atEnd atEnd p fun b q => q = p ∧ (b ↔ p.peek = .eof) := by
      apply ends_peek
      exact .pure ⟨rfl, by simp⟩
    apply hend.bind
    rintro b q ⟨rfl, heof⟩
    cases b with
    | true => exact .pure ⟨.refl q, heof.mp rfl⟩
    | false =>
      apply (ends_parseStatementAt hp hn hm).read hp
      intro next r hr honr
      apply (ends_matchToken honr (by simp)).pass honr
      intro _ t ht hont
      have hqt := hr.trans_forward ht
      have hlt := hqt.left_lt
      apply (ih t.left (by omega) hont (by omega) (by omega) _ rfl).mono
      rintro _ u ⟨hu, hpeek⟩
      exact ⟨(hqt.trans_forward hu).toForward, hpeek⟩

/-- The parser ends on every list of tokens. It has then read every token before the end of the input
and is as deep as it was, or the error stands at one of the tokens; and the statements are those of any
greater allowance of levels. -/
theorem ends_parse (hp : p.On tokens) : Ends tokens (Parser.parse debug) (Parser.parse debug) p
    fun program q => p.Forward q ∧ q.peek = .eof ∧ ∀ n, p.tokens.length < n →
      statementLoop (parseStatementAt debug n) [] p = some (.ok (program.statements, q)) := by
  have hlevels : p.left < p.tokens.length + 1 := Nat.lt_succ_of_le (Nat.sub_le ..)
  apply ends_get
  have hloop := @ends_statementLoop _ debug _ _ _ hp hlevels hlevels []
  apply EndAlike.bind (Q := fun statements q => p.Forward q ∧ q.peek = .eof ∧ ∀ n, p.tokens.length < n →
    statementLoop (parseStatementAt debug n) [] p = some (.ok (statements, q)))
  · obtain ⟨hsame, hmeets⟩ := hloop
    generalize hr : statementLoop (parseStatementAt debug (p.tokens.length + 1)) [] p = r at hmeets
    cases hmeets with
    | error he => exact .of_error hr hr he
    | value hq =>
      apply EndAlike.of_value hr hr
      refine ⟨hq.1, hq.2, ?_⟩
      intro n hn
      have hn' : p.left < n := Nat.lt_of_le_of_lt (Nat.sub_le ..) hn
      rw [(@ends_statementLoop _ debug _ _ _ hp hn' hlevels []).same]
      exact hr
  · rintro statements q ⟨hq, hpeek, hlater⟩
    exact .pure ⟨hq, hpeek, hlater⟩

end Ends

end Synaptica.Gql
