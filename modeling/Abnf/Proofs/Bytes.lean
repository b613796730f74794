import Abnf.Proofs.Recoding

/-!
# Abnf.Proofs.Bytes — bytes are matched as the characters of their codes

Rules test symbols by their codes alone, so that symbols of one kind can stand for those of another that
have the same codes (`Encoding`).  A rule is encoded by encoding all its symbols; a custom script is not
made of symbols but is shown them, and its encoding is shown what the encoded symbols stand for.  So an
encoded rule over an encoded scanner takes the same steps, by induction on the fuel: what a rule of each
kind does for a symbol, its encoding does for the encoded one (`Rule.recoded_script`).

* `Encoding.bytes`: a byte stands for the character with its code.
* `Rule.bytes_as_characters`: applications, their moments, and parses of bytes and of characters.
-/

namespace Abnf

variable {ρ σ α β : Type}

open Scanner

/-! ### Encodings -/

/-- A way to write symbols of one kind as symbols of another, of the same codes. -/
structure Encoding (α β : Type) [Symbol α] [Symbol β] where
  encode : α → β
  /-- What a symbol stands for, if it stands for any; else anything. -/
  decode : β → α
  code_encode : ∀ a, Symbol.code (encode a) = Symbol.code a
  decode_encode : ∀ a, decode (encode a) = a

namespace Encoding

/-- A byte as the character with its code. -/
def bytes : Encoding UInt8 Char where
  encode := Char.ofUInt8
  decode := Char.toUInt8
  code_encode _ := rfl
  decode_encode := UInt8.toUInt8_toUInt32

variable [Symbol α] [Symbol β] (e : Encoding α β)

theorem encode_injective : Function.Injective e.encode :=
  Function.LeftInverse.injective e.decode_encode

theorem same_encode (a b : α) : Symbol.same (e.encode a) (e.encode b) = Symbol.same a b := by
  simp only [Symbol.same, e.code_encode]

theorem between_encode (low high a : α) :
    Symbol.between (e.encode low) (e.encode high) (e.encode a) = Symbol.between low high a := by
  simp only [Symbol.between, e.code_encode]

theorem sameButCase_encode (a b : α) :
    Symbol.sameButCase (e.encode a) (e.encode b) = Symbol.sameButCase a b := by
  simp only [Symbol.sameButCase, Symbol.same, Symbol.code_lower, e.code_encode]

end Encoding

/-! ### Scripts -/

namespace Script

/-- The script with its rules exchanged, and shown what the symbols that it sees stand for. -/
def map (rules : ρ → σ) (decode : β → α) : Script ρ α → Script σ β
  | .answer outcome => .answer outcome
  | .peek next => .peek fun symbol? => (next (symbol?.map decode)).map rules decode
  | .advance next => .advance fun result => (next result).map rules decode
  | .mark next => .mark (next.map rules decode)
  | .rollback next => .rollback fun result => (next result).map rules decode
  | .commit next => .commit fun result => (next result).map rules decode
  | .inspect next => .inspect fun view => (next (view.map decode)).map rules decode
  | .report record next => .report record (next.map rules decode)
  | .apply rule next => .apply (rules rule) fun outcome => (next outcome).map rules decode
  | .unfinished => .unfinished

theorem map_map {τ γ : Type} (rules : ρ → σ) (rules' : σ → τ) (decode : β → α) (decode' : γ → β)
    (c : Script ρ α) :
    (c.map rules decode).map rules' decode' = c.map (rules' ∘ rules) (decode ∘ decode') := by
  induction c with
  | answer outcome => rfl
  | peek next ih => simp only [map, ih, Option.map_map]
  | advance next ih => simp only [map, ih]
  | mark next ih => simp only [map, ih]
  | rollback next ih => simp only [map, ih]
  | commit next ih => simp only [map, ih]
  | inspect next ih => simp only [map, ih, View.map, Array.map_map]
  | report record next ih => simp only [map, ih]
  | apply rule next ih => simp only [map, ih, Function.comp]
  | unfinished => rfl

/-- A script that is shown what the symbols stand for goes on for them alike. -/
theorem recoded_map (rules : ρ → σ) {f : α → β} {decode : β → α} (h : ∀ a, decode (f a) = a)
    (c : Script ρ α) : Recoded f (fun r r' => r' = rules r) c (c.map rules decode) := by
  have hid : decode ∘ f = id := funext h
  induction c with
  | answer outcome => exact .answer outcome
  | peek next ih =>
    refine .peek fun a? => ?_
    rw [Option.map_map, hid, Option.map_id]
    exact ih a?
  | advance next ih => exact .advance ih
  | mark next ih => exact .mark ih
  | rollback next ih => exact .rollback ih
  | commit next ih => exact .commit ih
  | inspect next ih =>
    refine .inspect fun view => ?_
    have hview : (view.map f).map decode = view := by
      simp only [View.map, Array.map_map, hid, Array.map_id]
    rw [hview]
    exact ih view
  | report record next ih => exact .report record ih
  | apply rule next ih => exact .apply rfl ih
  | unfinished => exact .unfinished

end Script

/-! ### Rules -/

section Rules

variable [Symbol α] [Symbol β]

mutual

/-- The rule with all its symbols encoded. -/
def Rule.recode (e : Encoding α β) : Rule α → Rule β
  | .symbol expected => .symbol (e.encode expected)
  | .oneOf candidates => .oneOf (candidates.map e.encode)
  | .range low high => .range (e.encode low) (e.encode high)
  | .endOfInput => .endOfInput
  | .caseless expected => .caseless (expected.map e.encode)
  | .concat rules => .concat (recodeList e rules)
  | .choice rules => .choice (recodeList e rules)
  | .optional rule => .optional (rule.recode e)
  | .repetition bounds rule => .repetition bounds (rule.recode e)
  | .nonterminal n => .nonterminal n
  | .custom script => .custom (recodeScript e script)

/-- The rules with all their symbols encoded. -/
def recodeList (e : Encoding α β) : List (Rule α) → List (Rule β)
  | [] => []
  | rule :: rest => rule.recode e :: recodeList e rest

/-- The script with the symbols of its rules encoded, and shown what the symbols that it sees stand
for. -/
def recodeScript (e : Encoding α β) : Script (Rule α) α → Script (Rule β) β
  | .answer outcome => .answer outcome
  | .peek next => .peek fun symbol? => recodeScript e (next (symbol?.map e.decode))
  | .advance next => .advance fun result => recodeScript e (next result)
  | .mark next => .mark (recodeScript e next)
  | .rollback next => .rollback fun result => recodeScript e (next result)
  | .commit next => .commit fun result => recodeScript e (next result)
  | .inspect next => .inspect fun view => recodeScript e (next (view.map e.decode))
  | .report record next => .report record (recodeScript e next)
  | .apply rule next => .apply (rule.recode e) fun outcome => recodeScript e (next outcome)
  | .unfinished => .unfinished

end

/-- The grammar with all the symbols of its bodies encoded. -/
def Grammar.recode (e : Encoding α β) (g : Grammar (Rule α)) : Grammar (Rule β) :=
  ⟨g.created, g.bodies.map fun body => (body.1, body.2.recode e)⟩

variable (e : Encoding α β)

theorem recodeList_eq (rules : List (Rule α)) : recodeList e rules = rules.map (Rule.recode e) := by
  induction rules with
  | nil => rfl
  | cons rule rest ih => simp only [recodeList, ih, List.map_cons]

theorem recodeScript_eq (c : Script (Rule α) α) :
    recodeScript e c = c.map (Rule.recode e) e.decode := by
  induction c with
  | answer outcome => rfl
  | peek next ih => simp only [recodeScript, Script.map, ih]
  | advance next ih => simp only [recodeScript, Script.map, ih]
  | mark next ih => simp only [recodeScript, Script.map, ih]
  | rollback next ih => simp only [recodeScript, Script.map, ih]
  | commit next ih => simp only [recodeScript, Script.map, ih]
  | inspect next ih => simp only [recodeScript, Script.map, ih]
  | report record next ih => simp only [recodeScript, Script.map, ih]
  | apply rule next ih => simp only [recodeScript, Script.map, ih]
  | unfinished => rfl

theorem Grammar.body?_recode (g : Grammar (Rule α)) (n : Nonterminal) :
    (g.recode e).body? n = (g.body? n).map (Rule.recode e) := by
  obtain ⟨created, bodies⟩ := g
  simp only [Grammar.recode, Grammar.body?]
  induction bodies with
  | nil => rfl
  | cons entry rest ih =>
    obtain ⟨id, body⟩ := entry
    simp only [List.map_cons, List.lookup_cons]
    split
    · rfl
    · exact ih

namespace Rule

/-- A rule and its encoding. -/
def Encodes (e : Encoding α β) (r : Rule α) (r' : Rule β) : Prop := r' = r.recode e

theorem forall₂_encodes (rules : List (Rule α)) :
    List.Forall₂ (Encodes e) rules (recodeList e rules) := by
  rw [recodeList_eq, List.forall₂_map_right_iff, List.forall₂_same]
  exact fun _ _ => rfl

/-- An encoded rule goes on for an encoded symbol as the rule does for the symbol. -/
theorem recoded_script (g : Grammar (Rule α)) (fuel : Nat) (rule : Rule α) :
    Script.Recoded e.encode (Encodes e) (rule.script g fuel)
      ((rule.recode e).script (g.recode e) fuel) := by
  cases rule with
  | symbol expected => exact .acceptIf fun a => e.same_encode expected a
  | oneOf candidates =>
    refine .acceptIf fun a => ?_
    rw [List.any_map]
    exact congrArg candidates.any (funext fun b => e.same_encode a b)
  | range low high => exact .acceptIf fun a => e.between_encode low high a
  | endOfInput => exact .endOfInput
  | caseless expected =>
    refine .mark (.acceptAll ?_)
    rw [List.map_map]
    exact forall₂_map_map fun b _ a => e.sameButCase_encode b a
  | concat rules => exact .sequence (forall₂_encodes e rules)
  | choice rules => exact .choice (forall₂_encodes e rules)
  | optional rule => exact .optional rfl
  | repetition bounds rule =>
    have hrule : Encodes e rule (rule.recode e) := rfl
    exact .repetition hrule fuel bounds
  | nonterminal n =>
    simp only [recode, script, Grammar.body?_recode]
    cases g.body? n with
    | none => exact .report _ (.answer _)
    | some body => exact .apply rfl .answer
  | custom script =>
    simp only [recode, Rule.script, recodeScript_eq]
    exact Script.recoded_map (Rule.recode e) e.decode_encode script

/-- An encoded rule over an encoded scanner comes to the same outcome and leaves the encoded scanner, or
comes to no end either. -/
theorem apply_recode (g : Grammar (Rule α)) (fuel : Nat) : ∀ (rule : Rule α) (s : Scanner α),
    (rule.recode e).apply (g.recode e) fuel (s.map e.encode) =
      (rule.apply g fuel s).map (Prod.map id (Scanner.map e.encode)) := by
  induction fuel with
  | zero => exact fun _ _ => rfl
  | succ fuel ih =>
    intro rule s
    refine (recoded_script e g fuel rule).run ?_ s
    rintro r r' rfl u
    exact ih r u

/-- At every moment the one scanner is the other encoded. -/
theorem moments_recode (g : Grammar (Rule α)) (fuel : Nat) : ∀ (rule : Rule α) (s : Scanner α),
    (rule.recode e).moments (g.recode e) fuel (s.map e.encode) =
      (rule.moments g fuel s).map (Scanner.map e.encode) := by
  induction fuel with
  | zero => exact fun _ _ => rfl
  | succ fuel ih =>
    intro rule s
    refine (recoded_script e g fuel rule).moments ?_ ?_ s
    · rintro r r' rfl u
      exact apply_recode e g fuel r u
    · rintro r r' rfl u
      exact ih r u

/-! ### Parses -/

end Rule

end Rules

/-- The answer with its symbols encoded. -/
def Answer.map (f : α → β) : Answer α → Answer β
  | .matched symbols => .matched (symbols.map f)
  | .noMatch => .noMatch
  | .failed misuse => .failed misuse
  | .noLength span => .noLength span

theorem Scanner.finish_map (f : α → β) (reporting : Bool) (o : Outcome) (s : Scanner α) :
    (s.map f).finish reporting o =
      Prod.map (Answer.map f) (Scanner.map f) (s.finish reporting o) := by
  have hdepth : (s.map f).depth = s.depth := rfl
  cases o with
  | failed misuse => rfl
  | matched span =>
    simp only [finish, hdepth]
    split
    · unfold finishMatch
      cases reporting with
      | true =>
        cases span.length? with
        | none => rfl
        | some length => simp only [if_true, slice_map]; rfl
      | false => simp only [slice_map]; rfl
    · rfl
  | noMatch =>
    simp only [finish, hdepth, size_buffer_map]
    split
    · cases reporting <;> rfl
    · rfl

theorem Rule.parse_recode [Symbol α] [Symbol β] (e : Encoding α β) (g : Grammar (Rule α))
    (fuel : Nat) (reporting : Bool) (rule : Rule α) (source : Source α) :
    (rule.recode e).parse (g.recode e) fuel reporting (source.map e.encode) =
      (rule.parse g fuel reporting source).map
        (Prod.map (Answer.map e.encode) (Scanner.map e.encode)) := by
  have hstart : Scanner.ofSource (source.map e.encode) = (Scanner.ofSource source).map e.encode := by
    simp [ofSource, Scanner.map]
  unfold parse
  rw [hstart, apply_recode]
  cases rule.apply g fuel (Scanner.ofSource source) with
  | none => rfl
  | some x => exact congrArg some (finish_map e.encode reporting x.1 x.2)

/-- What is matched and what it stands for are matched alike. -/
theorem Rule.parse_recode_matched_iff [Symbol α] [Symbol β] (e : Encoding α β) (g : Grammar (Rule α))
    (reporting : Bool) (rule : Rule α) (source : Source α) (v : List α) :
    (∃ fuel t, rule.parse g fuel reporting source = some (.matched v, t)) ↔
      ∃ fuel t, (rule.recode e).parse (g.recode e) fuel reporting (source.map e.encode) =
        some (.matched (v.map e.encode), t) := by
  simp only [parse_recode, Option.map_eq_some_iff]
  constructor
  · rintro ⟨fuel, t, h⟩
    exact ⟨fuel, t.map e.encode, _, h, rfl⟩
  · rintro ⟨fuel, t, ⟨answer, u⟩, hu, h⟩
    obtain ⟨hanswer, -⟩ := Prod.mk.inj h
    cases answer with
    | matched w =>
      have hw : w.map e.encode = v.map e.encode := by
        injection hanswer
      rw [List.map_injective_iff.mpr e.encode_injective hw] at hu
      exact ⟨fuel, u, hu⟩
    | noMatch | failed | noLength => cases hanswer

/-- **Bytes as characters.**  Let every byte stand for the character with its code.  Over any source, one
that goes on after its end included, and from any scanner, a rule over bytes takes the same steps as
the rule over the characters takes over the characters: there is the same outcome and the same end, at
every moment the scanners are the same but for the symbols in them, and so are the parses, which match
a sequence of bytes just when they match the characters.  A custom rule that does not look at the
symbols is over characters the script that it is over bytes. -/
theorem Rule.bytes_as_characters (g : Grammar (Rule UInt8)) (rule : Rule UInt8) :
    (∀ fuel s, (rule.recode .bytes).apply (g.recode .bytes) fuel (s.map Char.ofUInt8) =
        (rule.apply g fuel s).map (Prod.map id (Scanner.map Char.ofUInt8))) ∧
      (∀ fuel s, (rule.recode .bytes).moments (g.recode .bytes) fuel (s.map Char.ofUInt8) =
        (rule.moments g fuel s).map (Scanner.map Char.ofUInt8)) ∧
      (∀ fuel reporting source,
        (rule.recode .bytes).parse (g.recode .bytes) fuel reporting (source.map Char.ofUInt8) =
          (rule.parse g fuel reporting source).map
            (Prod.map (Answer.map Char.ofUInt8) (Scanner.map Char.ofUInt8))) ∧
      (∀ reporting source v,
        (∃ fuel t, rule.parse g fuel reporting source = some (.matched v, t)) ↔
          ∃ fuel t, (rule.recode .bytes).parse (g.recode .bytes) fuel reporting
            (source.map Char.ofUInt8) = some (.matched (v.map Char.ofUInt8), t)) ∧
      ∀ c : Script (Rule UInt8) Unit, (custom (c.map id fun _ => ())).recode .bytes =
        custom (c.map (Rule.recode .bytes) fun _ => ()) := by
  refine ⟨fun fuel => apply_recode .bytes g fuel rule, fun fuel => moments_recode .bytes g fuel rule,
    fun fuel reporting => parse_recode .bytes g fuel reporting rule,
    fun reporting => parse_recode_matched_iff .bytes g reporting rule, fun c => ?_⟩
  simp only [recode, recodeScript_eq, Script.map_map]
  rfl

end Abnf
