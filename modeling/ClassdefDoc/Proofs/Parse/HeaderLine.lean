import ClassdefDoc.Proofs.Parse.ClassRun
import ClassdefDoc.Proofs.Parse.Joint
import ClassdefDoc.Proofs.Parse.LineLead

/-!
# A statement on the line of its header

`HeaderEnd` says which tokens follow the headers of the blocks and functions
of a class. Where the header ends at a line end, the line behind it may be
joined to it by a blank, and the class stays the same but for its places.
-/

namespace ClassdefDoc

open Read List Fork
open ClassDecl (parse)

variable {rest : List Token} {r : Reader}

/-! ## Where headers end -/

/-- The tokens behind the header that starts at `p` with a word and goes on with what `x` reads. -/
def behindHeader? {α : Type} (x : Read α) (tokens : List Token) (p : Position) : Option (List Token) :=
  ((do discard advance; discard x : Read Unit) ⟨tokens.dropWhile fun t => decide (t.span.start ≠ p),
    none, []⟩).toOption.map
    fun r => significant r.2.ahead

/-- The tokens `ts` are behind the header of a block or of a function, whose body they start with or not. -/
inductive HeaderEnd (limits : Limits) (text : Text) (tokens : List Token) (c : ClassDecl) :
    Bool → List Token → Prop
  | block {b : Block} {ts : List Token} : b ∈ c.blocks →
    behindHeader? (attributes text) tokens b.position = some ts →
    HeaderEnd limits text tokens c false ts
  | method {m : Member} {t : Token} {ts : List Token} : m ∈ c.members →
    t ∈ tokens → t.span.start = m.position →
    structural? t.kind = some .function → behindHeader? signature tokens m.position = some ts →
    HeaderEnd limits text tokens c m.body?.isSome ts
  | function {r r' q : Reader} {fs : List Unit} {t : Token} {rest ts : List Token} :
    classPart limits text ⟨tokens, none, []⟩ = .ok (c, r) →
    Chain (turn (localFunction? limits text)) r fs r' → skipLayout false r' = .ok ((), q) →
    q.ahead = t :: rest →
    t.kind = .keyword .function → behindHeader? signature tokens t.span.start = some ts →
    HeaderEnd limits text tokens c true ts

namespace Read

variable {α : Type} {limits : Limits} {text : Text} {tokens : List Token} {t : Token} {q q₁ q₂ : Reader}

/-- What is read behind the word of a header is read again where the word stands. -/
theorem behindHeader?_of_run {x : Read α} {A : α → α → Prop}
    {w : Keyword} {v : α} (hscan : scan text = .ok tokens) (hx : (Shift.same text tokens).Follows x x A)
    (hq : q.ahead <:+ tokens) (hahead : ∃ rest, q.ahead = t :: rest)
    (hword : structural? t.kind = some w) (htake : advance q = .ok (t, q₁)) (hrun : x q₁ = .ok (v, q₂)) :
    behindHeader? x tokens t.span.start = some (significant q₂.ahead) := by
  obtain ⟨rest, hrest⟩ := hahead
  have hdiscard : (Shift.same text tokens).Follows (discard x) (discard x) Eq :=
    Parallel.Rel.discard (M := Shift.parallel _) hx
  obtain ⟨hdrop, _, s, -, hheader, hs⟩ := exists_header hscan hdiscard hq hrest hword htake (map_eq hrun)
  rw [behindHeader?, hdrop, hheader, Except.toOption, Option.map_some, hs]

/-- Functions behind the class leave no bracket open. -/
theorem localFunction?_at :
    Triple (At text []) (localFunction? limits text) (Round (fun _ => True) (At text []) fun _ => True) := by
  refine skipLayout_spec.bind fun _ => peek_spec.bind fun t => ?_
  split
  · exact .pure fun _ _ => .none trivial
  · rename_i hkind
    refine .ite (fun _ => ?_) fun _ => .refuse
    have hmember : Triple (fun r => At text [] r ∧ Sees t r) (functionMember limits text false) fun _ s =>
        At text [] s :=
      (functionMember_spec (k := .keyword .function) (by simp) rfl).weaken (fun r hr =>
        ⟨hr.1, t, hr.2, hkind⟩) fun _ _ hs => hs.2
    exact hmember.discard.bind fun _ => .pure fun _ hs => .some trivial hs
  · exact .unexpected

variable {limits : Limits} {text : Text} {tokens : List Token} {b : Block} {m : Member} {t : Token}
  {w : Keyword} {isAbstract : Bool} {p p₁ q q₁ q₂ s : Reader}

/-! ## Places behind headers -/

theorem endsHeader_of_structural? (h : structural? t.kind = some w) (hw : w ≠ .close) :
    endsHeader t.kind := by
  cases hk : t.kind with
  | identifier => rfl
  | keyword k =>
    obtain rfl : k = w := by simpa [hk, structural?] using h
    simpa [endsHeader] using hw
  | _ => simp [hk, structural?] at h

theorem at_of_word (hat : At text [] q) (hword : structural? t.kind = some w)
    (htake : advance q = .ok (t, q₁)) : At text [] q₁ := by
  obtain ⟨hkind, hafter⟩ := after_of_structural? hword
  exact (advance_kind_spec hkind hafter ⟨hat, t, (advance_last htake).1, rfl⟩ htake).at

theorem behind_of_word (hscan : scan text = .ok tokens) (hq : q.ahead <:+ tokens)
    (hword : structural? t.kind = some w) (hw : w ≠ .close) (htake : advance q = .ok (t, q₁)) :
    Behind tokens q₁ :=
  advance_behind (fun _ ht => Shift.eof_of_suffix hscan ht) (endsHeader_of_structural? hword hw) ⟨hq,
    (advance_last htake).1⟩ htake

theorem BlockRun.at (h : BlockRun limits text b t p q q₁ q₂ s) (hat : At text [] p) : At text [] q₂ :=
  attributes_spec (at_of_word (skipLayout_spec hat h.skip) h.word h.take) h.attributes

theorem BlockRun.behind (hscan : scan text = .ok tokens) (h : BlockRun limits text b t p q q₁ q₂ s)
    (hp : p.ahead <:+ tokens) :
    Behind tokens q₂ := by
  have hword : Behind tokens q₁ :=
    behind_of_word hscan (h.wordRun.suffix hp).1 h.word (by cases b.kind <;> simp [BlockKind.keyword]) h.take
  exact attributes_behind (fun _ ht => Shift.eof_of_suffix hscan ht) hword h.attributes

theorem FunctionRun.at (h : FunctionRun limits text isAbstract m t q q₁ q₂ s) (hat : At text [] q)
    (hword : structural? t.kind = some .function) : At text [] q₂ := by
  obtain ⟨signature', -, -, hsignature, -⟩ := h.run
  exact (signature_spec (at_of_word hat hword h.take) hsignature).2.at

theorem FunctionRun.behind (hscan : scan text = .ok tokens)
    (h : FunctionRun limits text isAbstract m t q q₁ q₂ s) (hq : q.ahead <:+ tokens) :
    Behind tokens q₂ := by
  obtain ⟨signature', -, -, hsignature, -⟩ := h.run
  exact signature_behind (fun _ ht => Shift.eof_of_suffix hscan ht)
    ((taking_advance.suffix h.take).trans hq) hsignature

theorem FunctionRun.isSome_body? (h : FunctionRun limits text isAbstract m t q q₁ q₂ s) :
    m.body?.isSome = !isAbstract := by
  obtain ⟨signature', line, body', -, -, hbody, rfl⟩ := h.run
  cases isAbstract with
  | true =>
    cases hbody
    rfl
  | false =>
    obtain ⟨b, rfl, -⟩ := of_map hbody
    rfl

/-- Behind the line end the next statement is looked for. -/
theorem dropWhile_of_significant {ts : List Token} {newline : Token}
    (h : significant ts = newline :: rest) (hnewline : newline.kind = .newline) :
    ts.dropWhile (isLayout ·.kind) = rest.dropWhile (isLayout ·.kind) := by
  rw [← continuations_append ts, h, dropWhile_append_of_pos, dropWhile_cons_of_pos (by rw [hnewline]; rfl)]
  exact fun u hu =>
    isLayout_of_isContinuation _ (mem_takeWhile_imp (p := fun t : Token => t.kind.isContinuation) hu)

/-! ## The method among the members of its block -/

/-- A method is read at `p`, behind the members `before` of its block, which
starts at `r`; the members `behind` and the end of the block follow. -/
structure MethodAmong (limits : Limits) (text : Text) (tokens : List Token)
    (b : Block) (m : Member) (before behind : List Member) (t : Token) (r p q q₁ q₂ p₁ s : Reader) :
    Prop where
  kind : b.kind = .methods
  members : b.members = before ++ m :: behind
  past : Chain (turn (member? limits text b.kind b.isAbstract)) r before p
  turn : member? limits text b.kind b.isAbstract p = .ok (some m, p₁)
  rest : Collected (Read.turn (member? limits text b.kind b.isAbstract)) p₁ behind s
  place : At text [] p
  suffix : p.ahead <:+ tokens
  skip : skipLayout true p = .ok ((), q)
  ahead : ∃ rest, q.ahead = t :: rest
  word : structural? t.kind = some .function
  position : m.position = t.span.start
  run : FunctionRun limits text b.isAbstract m t q q₁ q₂ p₁

theorem MethodAmong.wordRun {before behind : List Member}
    (h : MethodAmong limits text tokens b m before behind t r p q q₁ q₂ p₁ s) : WordRun true t p q q₁ :=
  ⟨h.skip, h.ahead, isLayout_of_structural? h.word, h.run.take⟩

theorem BlockRun.exists_method {u : Token} {q₃ : Reader} (hscan : scan text = .ok tokens)
    (h : BlockRun limits text b u p q₃ q₁ q₂ s) (hat : At text [] p)
    (hp : p.ahead <:+ tokens) (hm : m ∈ b.members) (ht : t ∈ tokens)
    (hstart : t.span.start = m.position) (hword : structural? t.kind = some .function) :
    ∃ before behind p' q q₁' q₂' p₁',
      MethodAmong limits text tokens b m before behind t q₂ p' q q₁' q₂' p₁' s := by
  obtain ⟨before, behind, hmembers⟩ := append_of_mem hm
  obtain ⟨p₂, hchain, hdone⟩ := (collected_of_collect h.members).chain
  rw [hmembers] at hchain
  obtain ⟨p', hpast, hrest⟩ := hchain.of_append
  have hat' : At text [] p' :=
    hpast.keeps (fun hr hturn => ((member?_spec hr (step_of_turn hturn)).item _ rfl).2) (h.at hat)
  have hsuffix : p'.ahead <:+ tokens :=
    (suffix_of_chain closing_member?.turning hpast).trans (h.suffix hp)
  cases hrest with
  | @cons _ _ p₁' _ _ hturn hbehind =>
    have hround := step_of_turn hturn
    obtain ⟨v, q, rest, hskip, hahead, heof, hposition, hfunction⟩ := member?_run hround
    -- the token at the place of the member is the one that is read there
    obtain rfl : v = t := by
      obtain ⟨past', rest', rfl⟩ := append_of_mem ht
      have hahead' := (near_skipLayout.suffix hskip).trans hsuffix
      rw [hahead] at hahead'
      exact (List.cons.inj (eq_of_start hscan (after_of_structural? hword).1 hahead' heof
        (hstart.trans hposition))).1
    obtain ⟨hkind, hmember⟩ := hfunction hword
    obtain ⟨q₁', q₂', hrun⟩ :=
      functionMember_run (sees_of_ahead hahead (isContinuation_of_structural? hword)) hmember
    exact ⟨before, behind, p', q, q₁', q₂', p₁', hkind, hmembers,
      hpast, hround, hbehind.collected hdone, hat', hsuffix, hskip, ⟨rest, hahead⟩, hword, hposition, hrun⟩

end Read

/-- A header that ends at `q`: the line behind it may be joined to it. -/
structure Crossing (limits : Limits) (text : Text) (tokens : List Token)
    (c : ClassDecl) (bodied : Bool) (q : Reader) : Prop where
  place : At text [] q
  behind : Behind tokens q
  steady : bodied = false → ∀ {newline t rest}, significant q.ahead = newline :: t :: rest →
    newline.kind = .newline →
    leads [.close, .close, .function] (t :: rest) = false → Steady 2 (t :: rest)
  cross : ∀ J : Joint, J.text = text → J.tokens = tokens → significant q.ahead = J.tail → J.Fits (!bodied) →
    ∃ c' s', classFile limits J.text' ⟨J.tokens', none, []⟩ = .ok (c', s') ∧ J.SameClass limits c c'

namespace Crossing

variable {limits : Limits} {text : Text} {tokens : List Token}
  {c : ClassDecl} {b : Block} {m : Member} {t u : Token} {before behind : List Block}
  {r₁ r₂ p p₁ q q₁ q₂ s : Reader}

/-- From the word of a header on, the tokens up to the joint are behind the start of the reading. -/
theorem word_suffix {J : Joint} {record : Bool} (hp : p.ahead <:+ J.tokens)
    (hword : WordRun record t p q q₁) (hq₂ : q₂.ahead <:+ q₁.ahead)
    (hJ : significant q₂.ahead = J.tail) : ∃ z, t :: z ++ J.tail <:+ p.ahead := by
  obtain ⟨z, hz⟩ : J.tail <:+ q₁.ahead := hJ ▸ (dropWhile_suffix _).trans hq₂
  exact ⟨z, by rw [cons_append, hz]; exact hword.cons_suffix J.scan_eq hp⟩

section

variable (hscan : scan text = .ok tokens) (hrun : ClassRun limits text c ⟨tokens, none, []⟩ r₁ r₂ s)
include hscan hrun

theorem of_block (h : BlockAmong limits text tokens c b before behind t r₁ p q q₁ q₂ p₁ r₂) :
    Crossing limits text tokens c false q₂ where
  place := h.run.at h.place
  behind := h.run.behind hscan h.suffix
  steady := by
    intro _ newline u rest hahead hnewline hleads
    obtain ⟨fs, hfunctions⟩ := hrun.functions
    exact steady_of_file (dropWhile_of_significant hahead hnewline)
      hscan (h.run.suffix h.suffix) (collected_of_collect h.run.members)
      h.rest (collected_of_collect hfunctions) hleads
  cross := by
    rintro J rfl rfl hJ hfits
    obtain ⟨z, hz⟩ := word_suffix h.suffix h.run.wordRun (near_attributes.suffix h.run.attributes) hJ
    exact exists_class_of_block hrun h.blocks h.past h.rest h.run.wordRun.kind.1 hz
      fun hbefore => hbefore.block h.suffix h.run hJ (hfits.bodiless rfl)

theorem of_method {before' behind' : List Member} {p' q' q₁' q₂' p₁' : Reader}
    (h : BlockAmong limits text tokens c b before behind u r₁ p q q₁ q₂ p₁ r₂)
    (hm : MethodAmong limits text tokens b m before' behind' t q₂ p' q' q₁' q₂' p₁' p₁) :
    Crossing limits text tokens c m.body?.isSome q₂' where
  place := hm.run.at (skipLayout_spec hm.place hm.skip) hm.word
  behind := hm.run.behind hscan (hm.wordRun.suffix hm.suffix).1
  steady := by
    intro hbody newline v rest hahead hnewline hleads
    obtain ⟨fs, hfunctions⟩ := hrun.functions
    have habstract : b.isAbstract := by simpa [hm.run.isSome_body?] using hbody
    obtain rfl : p₁' = q₂' := by
      obtain ⟨_, _, _, -, -, hnone, -⟩ := hm.run.run
      rw [habstract] at hnone
      cases hnone
      rfl
    exact steady_of_file (dropWhile_of_significant hahead hnewline)
      hscan (hm.run.suffix.trans (hm.wordRun.suffix hm.suffix).2) hm.rest
      h.rest (collected_of_collect hfunctions) hleads
  cross := by
    rintro J rfl rfl hJ hfits
    rw [hm.run.isSome_body?, Bool.not_not] at hfits
    have hword := hm.wordRun
    obtain ⟨z, hz⟩ := word_suffix hm.suffix hword hm.run.suffix hJ
    have hp : t :: z ++ J.tail <:+ p.ahead :=
      (hz.trans (suffix_of_chain closing_member?.turning hm.past)).trans (h.run.suffix suffix_rfl)
    refine exists_class_of_block hrun h.blocks h.past h.rest hword.kind.1 hp fun hbefore => ?_
    refine hbefore.memberBlock h.suffix h.run hm.members hm.past hm.rest hword.kind.1 hz fun hbefore' => ?_
    have hturn := hm.turn
    rw [hm.kind] at hturn ⊢
    exact hbefore'.method hm.suffix hword hm.word hturn hm.run hJ hfits

theorem of_function {fs : List Unit} (hpast : Chain (turn (localFunction? limits text)) r₂ fs r)
    (hskip : skipLayout false r = .ok ((), q)) (hahead : q.ahead = t :: rest)
    (hkind : t.kind = .keyword .function) :
    ∃ m q₁ q₂ s', FunctionRun limits text false m t q q₁ q₂ s' ∧
      q.ahead <:+ tokens ∧ Crossing limits text tokens c true q₂ := by
  have hword : structural? t.kind = some .function := by rw [hkind]; rfl
  have hr₁ : At text [] r₁ := (classHead_spec (ahead_of_scan hscan) hrun.head).2
  have hr₂ : At text [] r₂ := (blocks_members (fun _ _ => member?_spec) hr₁ hrun.blocks).2
  have hr : At text [] r :=
    hpast.keeps (fun hr hturn => ((localFunction?_at hr (step_of_turn hturn)).item _ rfl).2) hr₂
  have hsuffix : r.ahead <:+ tokens := (suffix_of_chain turning_localFunction? hpast).trans
    ((closing_block?.turning.many.suffix hrun.blocks).trans (near_classHead.suffix hrun.head))
  have hq : q.ahead <:+ tokens := (near_skipLayout.suffix hskip).trans hsuffix
  have hsees : Sees t q := sees_of_ahead hahead (isContinuation_of_structural? hword)
  -- the function is read, so another round follows
  have hround {o : Option Unit} {p : Reader} (h : localFunction? limits text r = .ok (o, p)) :
      o = some () ∧ limits.localFunctions ∧ ∃ m, functionMember limits text false q = .ok (m, p) := by
    rw [localFunction?, bind_eq hskip, bind_eq (peek_eq hsees), hkind] at h
    by_cases hlimits : limits.localFunctions
    · simp only [hlimits, if_true] at h
      obtain ⟨_, p', hdiscard, ⟨⟩⟩ := bind_eq_ok_iff.1 h
      obtain ⟨m, hm⟩ := of_discard hdiscard
      exact ⟨rfl, hlimits, m, hm⟩
    · simp only [hlimits] at h
      cases h
  obtain ⟨gs, hfunctions⟩ := hrun.functions
  obtain ⟨s₂, hchain, hdone⟩ := (collected_of_collect hfunctions).chain
  obtain ⟨cs, -, hrest⟩ := hpast.exists_append hchain hdone
  cases hrest with
  | nil => cases (hround (stop_of_turn hdone)).1
  | @cons _ a p₁ cs _ hturn hbehind =>
    obtain ⟨-, hlimits, m, hm⟩ := hround (step_of_turn hturn)
    obtain ⟨q₁, q₂, hfunction⟩ := functionMember_run hsees hm
    refine ⟨m, q₁, q₂, p₁, hfunction, hq, hfunction.at (skipLayout_spec hr hskip) hword,
      hfunction.behind hscan hq, by rintro ⟨⟩, ?_⟩
    rintro J rfl rfl hJ hfits
    have hrunWord : WordRun false t r q q₁ :=
      ⟨hskip, ⟨rest, hahead⟩, isLayout_of_structural? hword, hfunction.take⟩
    obtain ⟨z, hz⟩ := word_suffix hsuffix hrunWord hfunction.suffix hJ
    exact exists_class_of_function hrun hpast (hbehind.collected hdone) hrunWord.kind.1 hz
      fun hbefore => hbefore.localFunction hsuffix hrunWord hkind hlimits hfunction hJ hfits

end

end Crossing

namespace HeaderEnd

variable {limits : Limits} {text : Text} {tokens ts : List Token}
  {c : ClassDecl} {bodied : Bool} {r₁ r₂ s : Reader}

theorem exists_crossing (hscan : scan text = .ok tokens)
    (hrun : ClassRun limits text c ⟨tokens, none, []⟩ r₁ r₂ s)
    (h : HeaderEnd limits text tokens c bodied ts) : ∃ q, significant q.ahead = ts ∧
    Crossing limits text tokens c bodied q := by
  cases h with
  | @block b ts hb hts =>
    obtain ⟨before, behind, t, p, q, q₁, q₂, p₁, h⟩ := hrun.exists_block hscan hb
    have hbehind : behindHeader? (attributes text) tokens t.span.start = some (significant q₂.ahead) :=
      behindHeader?_of_run hscan Shift.follows_attributes
        (h.run.wordRun.suffix h.suffix).1 h.run.ahead h.run.word h.run.take h.run.attributes
    rw [← h.run.position, hts] at hbehind
    exact ⟨q₂, (Option.some.inj hbehind).symm, .of_block hscan hrun h⟩
  | @method m t ts hm ht hstart hword hts =>
    obtain ⟨b, hb, hm⟩ := mem_flatMap.1 hm
    obtain ⟨before, behind, u, p, q, q₁, q₂, p₁, h⟩ := hrun.exists_block hscan hb
    obtain ⟨before', behind', p', q', q₁', q₂', p₁', hmethod⟩ :=
      h.run.exists_method hscan h.place h.suffix hm ht hstart hword
    obtain ⟨signature', -, -, hsignature, -⟩ := hmethod.run.run
    have hbehind :=
      behindHeader?_of_run hscan Shift.follows_signature (hmethod.wordRun.suffix hmethod.suffix).1
      hmethod.ahead hmethod.word hmethod.run.take hsignature
    rw [← hmethod.position, hts] at hbehind
    exact ⟨q₂', (Option.some.inj hbehind).symm, .of_method hscan hrun h hmethod⟩
  | @function r r' q fs t rest ts hclass hpast hskip hahead hkind hts =>
    cases hrun.classPart.symm.trans hclass
    obtain ⟨m, q₁, q₂, s', hfunction, hq, hcrossing⟩ :=
      Crossing.of_function hscan hrun hpast hskip hahead hkind
    obtain ⟨signature', -, -, hsignature, -⟩ := hfunction.run
    have hbehind := behindHeader?_of_run (w := .function) hscan Shift.follows_signature hq ⟨rest,
      hahead⟩ (by rw [hkind]; rfl)
      hfunction.take hsignature
    rw [hts] at hbehind
    exact ⟨q₂, (Option.some.inj hbehind).symm, hcrossing⟩

end HeaderEnd

/-! ## The line behind a header -/

def TokenKind.isQuoted : TokenKind → Bool
  | .literal .single _ => true
  | _ => false

/-- Whether a line may be joined to the header before it. The first word of a body may neither
open nor close a construct, since it is no keyword behind a header, and a literal behind any
other keyword would be taken for transposes. Behind the other headers the words that open and
close blocks are known all the same, but the word of a function behind the class is not. -/
def joinable : Bool → List Token → Bool
  | true, t :: rest => Shift.isFlat t.kind && match t.kind with
    | .keyword _ => !rest.head?.any (·.kind.isQuoted)
    | _ => true
  | true, [] => true
  | false, ts => !leads [.close, .close, .function] ts

theorem steady_of_joinable {t : Token} (h : joinable true (t :: rest)) (ht : t.kind.isJoined) :
    Steady 0 (t :: rest) ∧ Shift.isFlat t.kind := by
  obtain ⟨hflat, hquoted⟩ := Bool.and_eq_true_iff.1 h
  refine ⟨?_, hflat⟩
  obtain ⟨w, hk⟩ | ⟨k, hk⟩ | hk := TokenKind.cases_of_isJoined ht
  · simp only [Steady, hk]
  · have hnext : ∀ u ∈ rest.head?, ∀ v, u.kind ≠ .literal .single v := by
      intro u hu v hv
      simp [hk, Option.mem_def.1 hu, hv, TokenKind.isQuoted] at hquoted
    rw [hk] at hflat
    cases k <;> first | simp [Shift.isFlat, Keyword.opensConstruct] at hflat; done | simpa [Steady,
      hk] using hnext
  · simp only [Steady, hk]

/-- A line that follows a header and may be joined to it by a blank gives a class
that is the same but for its places, and all bodies end at the same `end`. -/
theorem ClassDecl.exists_parse_joined {limits : Limits} {a b : Text}
    {c : ClassDecl} {tokens rest : List Token} {newline t : Token} {bodied : Bool}
    (hparse : ClassDecl.parse limits (a ++ '\n' :: b) = .ok c)
    (hscan : scan (a ++ '\n' :: b) = .ok tokens)
    (hheader : HeaderEnd limits (a ++ '\n' :: b) tokens c bodied (newline :: t :: rest))
    (hnewline : newline.kind = .newline) (hoffset : newline.offset = Text.bytes a)
    (hstart : t.kind.isJoined = true) (hjoinable : joinable bodied (t :: rest) = true) :
    ∃ c' tokens', ClassDecl.parse limits (a ++ ' ' :: b) = .ok c' ∧
      scan (a ++ ' ' :: b) = .ok tokens' ∧ c.bare = c'.bare ∧
      c.members.map (·.bodyEnd? limits tokens) = c'.members.map (·.bodyEnd? limits tokens') := by
  obtain ⟨r₁, r₂, s, hrun⟩ := exists_classRun hparse hscan
  obtain ⟨q, hq, hcrossing⟩ := hheader.exists_crossing hscan hrun
  -- the texts at the joint, and what of the line is read alike
  obtain ⟨J, htext, htext', htokens, hopens, htail, hfits⟩ :
      ∃ J : Joint, J.text = a ++ '\n' :: b ∧ J.text' = a ++ ' ' :: b ∧
      J.tokens = tokens ∧ (∀ {i i'}, J.opens i i' → i = i') ∧
      J.tail = newline :: t :: rest ∧ J.Fits (!bodied) := by
    have joint {n : Nat} := Joint.exists_joint (n := n) hscan hcrossing.place hcrossing.behind hq hnewline
      hoffset hstart
    cases bodied with
    | true =>
      obtain ⟨hsteady, hflat⟩ := steady_of_joinable hjoinable hstart
      obtain ⟨J, htext, htext', htokens, hopens, htail, hrelaxed⟩ := joint hsteady
      have hfirst : J.first = t := by
        rw [J.tail_eq] at htail
        exact (List.cons.inj (List.cons.inj htail).2).1
      exact ⟨J, htext, htext', htokens, hopens, htail, by rintro ⟨⟩, fun _ => ⟨hrelaxed, hfirst ▸ hflat⟩⟩
    | false =>
      have hsteady : Steady 2 (t :: rest) :=
        hcrossing.steady rfl hq hnewline (by simpa [joinable] using hjoinable)
      obtain ⟨J, htext, htext', htokens, hopens, htail, hrelaxed⟩ := joint hsteady
      exact ⟨J, htext, htext', htokens, hopens, htail, fun _ => hrelaxed, by rintro ⟨⟩⟩
  obtain ⟨c', s', hfile', hsame⟩ := hcrossing.cross J htext htokens (hq.trans htail.symm) hfits
  rw [← htext] at hparse
  rw [← htext', ← htokens]
  refine ⟨c', J.tokens', Shift.parse_of_classFile J.scanned hparse hfile' hsame.bare,
    J.scan_eq', hsame.bare, ?_⟩
  have hends := hsame.members.imp fun _ _ h => h.bodyEnd
  have eq_of_rel {i i' : Option Nat} (h : Option.Rel J.opens i i') : i = i' := by
    cases h with
    | none => rfl
    | some h => exact congrArg some (hopens h)
  exact map_eq_of_forall₂ hends fun _ _ h => eq_of_rel h

/-- The start of a class up to the header of a method. -/
def methodHeader : Text := "classdef A\nmethods\nfunction f(x)"

theorem ClassDecl.exists_parse_joined_assignment :
    ∃ c c', ClassDecl.parse {} (methodHeader ++ '\n' :: "x = 1;\nend\nend\nend\n".toList) = .ok c ∧
    ClassDecl.parse {} (methodHeader ++ ' ' :: "x = 1;\nend\nend\nend\n".toList) = .ok c' ∧
    c.bare = c'.bare := by
  obtain ⟨c, hc, tokens, hscan, m, hm, t, ht, hstart, hword, hbehind⟩ :
      ∃ c, parse {} (methodHeader ++ '\n' :: "x = 1;\nend\nend\nend\n".toList) = .ok c ∧
      ∃ tokens, scan (methodHeader ++ '\n' :: "x = 1;\nend\nend\nend\n".toList) = .ok tokens ∧
      ∃ m ∈ c.members, ∃ t ∈ tokens, t.span.start = m.position ∧ structural? t.kind = some .function ∧
      (behindHeader? signature tokens m.position).any (fun ts => joinable m.body?.isSome ts.tail &&
        ts.head?.any (fun newline => newline.kind == .newline && newline.offset == methodHeader.bytes) &&
        ts.tail.head?.any (·.kind.isJoined)) = true := by decide +kernel
  simp only [Option.any_eq_true, Bool.and_eq_true, beq_iff_eq, head?_eq_some_iff] at hbehind
  obtain ⟨_, hts, ⟨hjoinable, newline, ⟨_, rfl⟩, hnewline, hoffset⟩, first, ⟨_, rfl⟩, hjoined⟩ := hbehind
  obtain ⟨c', tokens', hc', -, hbare, -⟩ := ClassDecl.exists_parse_joined hc hscan
    (.method hm ht hstart hword hts) hnewline hoffset hjoined hjoinable
  exact ⟨c, c', hc, hc', hbare⟩

/-- The first word of a body opens no construct on the line of the header, so that the body ends too early. -/
theorem ClassDecl.not_parse_joined_construct :
    (parse {} (methodHeader ++ '\n' :: "if x\nend\nend\nend\nend\n".toList)).toOption.isSome = true ∧
    (parse {} (methodHeader ++ ' ' :: "if x\nend\nend\nend\nend\n".toList)).toOption.isSome = false := by
  decide +kernel

-- a literal behind a word that is no keyword there is read as transposes
example :
    (ClassDecl.parse {} (methodHeader ++ '\n' :: "properties 'a; end '\nend\nend\nend\n".toList)).isOk =
    true ∧
    (ClassDecl.parse {} (methodHeader ++ ' ' :: "properties 'a; end '\nend\nend\nend\n".toList)).isOk =
    false := by
  decide +kernel

-- the word of a function behind the class is not known on the line of a header
example :
    (ClassDecl.parse {} ("classdef A\nproperties".toList ++ '\n' ::
      "end end function f\nend\n".toList)).isOk = true ∧
    (ClassDecl.parse {} ("classdef A\nproperties".toList ++ ' ' :: "end end function f\nend\n".toList)).isOk =
    false := by
  decide +kernel

end ClassdefDoc
