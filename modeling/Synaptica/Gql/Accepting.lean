import Synaptica.Gql.RoundTrip
import Synaptica.Gql.StatementPrinting

/-!
# What a parsing function accepts

`Accepts x ts a F`: on the tokens `ts`, and behind them a token of which `F` holds, `x` answers `a` and
stops at the seam. The rules follow the way parsing functions are written, so that a function is shown to
accept what is printed by going along its body.
-/

namespace Synaptica.Gql

section Accepts

variable {α β : Type} {debug : Token → String} {x : ParseM α} {ts us : List Token} {a : α} {b : β}
  {t u : Token} {F G : Token → Prop}

def Accepts (x : ParseM α) (ts : List Token) (a : α) (F : Token → Prop) : Prop :=
  ∀ (p : Parser) (rest : List Token), p.ahead = ts ++ rest → F (rest.headD .eof) → p.depth = 0 →
    x p = some (.ok (a, p.skip ts.length))

theorem Accepts.mono (h : Accepts x ts a F) (hG : ∀ t, G t → F t) : Accepts x ts a G :=
  fun p rest hp hrest hdepth => h p rest hp (hG _ hrest) hdepth

theorem accepts_pure (a : α) (F : Token → Prop) : Accepts (pure a) [] a F := fun _ _ _ _ _ => rfl

/-- The token at the seam is the first one of the part behind, or of what follows. -/
theorem headD_append (us rest : List Token) :
    (us ++ rest).headD .eof = (us ++ [rest.headD .eof]).headD .eof := by
  cases us <;> rfl

/-- One part behind the other. -/
theorem Accepts.bind {f : α → ParseM β} (hx : Accepts x ts a F) (hf : Accepts (f a) us b G)
    (h : ∀ t, G t → F ((us ++ [t]).headD .eof)) : Accepts (x >>= f) (ts ++ us) b G := by
  intro p rest hp hrest hdepth
  rw [List.append_assoc] at hp
  have hfirst := hx p (us ++ rest) hp (by rw [headD_append]; exact h _ hrest) hdepth
  rw [bind_of _ hfirst, hf _ rest (Parser.ahead_skip hp) hrest hdepth, Parser.skip_skip,
    List.length_append]

/-- The last part of a sequence that then answers. -/
theorem Accepts.map {f : α → ParseM β} (hx : Accepts x ts a F) (hb : f a = pure b)
    (hG : ∀ t, G t → F t) : Accepts (x >>= f) ts b G := by
  have hf : Accepts (f a) [] b G := by
    rw [hb]
    exact accepts_pure b G
  have hseq := hx.bind hf hG
  rwa [List.append_nil] at hseq

/-- A step over one token in front of what the rest accepts. -/
theorem accepts_cons {y : ParseM β} {f : ParseM β}
    (hstep : ∀ p us, p.ahead = t :: us → y p = f (p.skip 1)) (hf : Accepts f us b G) :
    Accepts y (t :: us) b G := by
  intro p rest hp hrest hdepth
  rw [hstep p _ hp, hf _ rest (Parser.ahead_skip_one hp) hrest hdepth, Parser.skip_skip,
    List.length_cons, Nat.add_comm]

theorem accepts_advance {f : Unit → ParseM β} (ht : t ≠ .eof) (hf : Accepts (f ()) us b G) :
    Accepts (advance >>= f) (t :: us) b G :=
  accepts_cons (fun _ _ hp => advance_bind f hp ht) hf

theorem accepts_expect {f : Unit → ParseM β} (ht : t ≠ .eof) (hf : Accepts (f ()) us b G) :
    Accepts (expect debug t >>= f) (t :: us) b G :=
  accepts_cons (fun _ _ hp => expect_bind debug f hp ht) hf

theorem accepts_ident {f : String → ParseM β} {name : String} (hf : Accepts (f name) us b G) :
    Accepts (expectIdent debug >>= f) (.ident name :: us) b G :=
  accepts_cons (fun _ _ hp => expectIdent_bind f hp) hf

theorem accepts_identOrKeyword {f : String → ParseM β} {name : String}
    (hf : Accepts (f name) us b G) :
    Accepts (expectIdentOrKeyword debug >>= f) (propertyToken name :: us) b G :=
  accepts_cons (fun _ _ hp => expectIdentOrKeyword_bind f hp) hf

theorem accepts_match {f : Bool → ParseM β} (ht : t ≠ .eof) (hf : Accepts (f true) us b G) :
    Accepts (matchToken t >>= f) (t :: us) b G :=
  accepts_cons (fun _ _ hp => matchToken_bind f hp ht) hf

theorem accepts_match_other {f : Bool → ParseM β} (h : ∀ u, G u → (us ++ [u]).headD .eof ≠ t)
    (hf : Accepts (f false) us b G) : Accepts (matchToken t >>= f) us b G := by
  intro p rest hp hrest hdepth
  have hne : p.peek ≠ t := by
    rw [Parser.peek_eq_headD, hp, headD_append]
    exact h _ hrest
  rw [matchToken_bind_of_ne f hne, hf p rest hp hrest hdepth]

theorem accepts_peek {f : Token → ParseM β}
    (hf : ∀ u, G u → Accepts (f ((us ++ [u]).headD .eof)) us b G) :
    Accepts (peekToken >>= f) us b G := by
  intro p rest hp hrest hdepth
  have hpeek : p.peek = (us ++ [rest.headD .eof]).headD .eof := by
    rw [Parser.peek_eq_headD, hp, headD_append]
  rw [bind_of (x := peekToken) f rfl, hpeek]
  exact hf _ hrest p rest hp hrest hdepth

/-- A function whose first token is known. -/
theorem accepts_peek_cons {f : Token → ParseM β} (hf : Accepts (f t) (t :: us) b G) :
    Accepts (peekToken >>= f) (t :: us) b G :=
  accepts_peek fun _ _ => hf

/-- A function that has nothing to read. -/
theorem accepts_peek_nil {f : Token → ParseM β} (hf : ∀ u, G u → f u = pure b) :
    Accepts (peekToken >>= f) [] b G := by
  apply accepts_peek
  intro u hu
  show Accepts (f u) [] b G
  rw [hf u hu]
  exact accepts_pure b G

/-- A function of its own, seen as the last step of a sequence. -/
theorem accepts_last (h : Accepts (x >>= pure) ts a F) : Accepts x ts a F := by
  rwa [bind_pure] at h

theorem accepts_ident_last {name : String} (F : Token → Prop) :
    Accepts (expectIdent debug) [.ident name] name F :=
  accepts_last (accepts_ident (accepts_pure name F))

theorem accepts_identOrKeyword_last {name : String} (F : Token → Prop) :
    Accepts (expectIdentOrKeyword debug) [propertyToken name] name F :=
  accepts_last (accepts_identOrKeyword (accepts_pure name F))

theorem accepts_flag (flag : Bool) (ht : t ≠ .eof) :
    Accepts (matchToken t) (flagTokens t flag) flag (· ≠ t) := by
  apply accepts_last
  cases flag with
  | true => exact accepts_match ht (accepts_pure true _)
  | false => exact accepts_match_other (fun _ hu => hu) (accepts_pure false _)

/-! ## Items -/

theorem accepts_itemLoop {print : α → List Token} {items : List α} (ht : t ≠ .eof)
    (hx : ∀ item ∈ items, Accepts x (print item) item F) (hF : F t) (hG : ∀ u, G u → F u ∧ u ≠ t)
    (before : List α) :
    Accepts (itemLoop t x before) (eachBehind t print items) (before ++ items) G := by
  induction items generalizing before with
  | nil =>
    rw [itemLoop, List.append_nil]
    exact accepts_match_other (fun u hu => (hG u hu).2) (accepts_pure before G)
  | cons item items ih =>
    rw [itemLoop]
    apply accepts_match ht
    apply (hx item (List.mem_cons_self ..)).bind
    · have hlater := ih (fun i hi => hx i (List.mem_cons_of_mem _ hi)) (before ++ [item])
      rwa [List.append_assoc] at hlater
    · intro u hu
      cases items with
      | nil => exact (hG u hu).1
      | cons next items => exact hF

theorem commaTokens_cons (print : α → List Token) (item : α) (items : List α) :
    commaTokens print (item :: items) = print item ++ eachBehind .comma print items := by
  induction items generalizing item with
  | nil => simp [commaTokens, eachBehind]
  | cons next items ih =>
    rw [commaTokens, ih]
    · simp [eachBehind]
    · simp

theorem accepts_commaItems {print : α → List Token} {items : List α} (hne : items ≠ [])
    (hx : ∀ item ∈ items, Accepts x (print item) item F) (hF : F .comma)
    (hG : ∀ u, G u → F u ∧ u ≠ .comma) :
    Accepts (commaItems x) (commaTokens print items) items G := by
  obtain ⟨first, items, rfl⟩ := List.exists_cons_of_ne_nil hne
  rw [commaItems, commaTokens_cons]
  apply (hx first (List.mem_cons_self ..)).bind
  · exact accepts_itemLoop (by simp) (fun i hi => hx i (List.mem_cons_of_mem _ hi)) hF hG [first]
  · intro u hu
    cases items with
    | nil => exact (hG u hu).1
    | cons next items => exact hF

/-- A clause behind a keyword, or nothing. -/
theorem accepts_optional {x : ParseM (Option α)} {keywords : List Token} {print : α → List Token}
    (clause : Option α) (hnone : Accepts x [] none G)
    (hsome : ∀ c ∈ clause, Accepts x (keywords ++ print c) (some c) G) :
    Accepts x (clauseTokens keywords print clause) clause G := by
  cases clause with
  | none => exact hnone
  | some c => exact hsome c rfl

end Accepts

end Synaptica.Gql
