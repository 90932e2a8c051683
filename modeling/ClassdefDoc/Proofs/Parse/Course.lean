import ClassdefDoc.Proofs.Parse.WellFormed

/-!
# The course of a class file

The tokens of a class file are stretches (`Stretch`): layout between declarations,
headers, and members with their bodies. Reading a class passes one stretch after another
(`Read.Covers`): it records the comments of the layout and no others, and it gives the
members in their order. `ClassDecl.course_of_parse` says so for the class of a text.
-/

namespace ClassdefDoc

open List LooseComment

/-! ## Stretches -/

/-- The lines of a comment. -/
def TokenKind.commentLines : TokenKind → List Text
  | .comment text => [text]
  | .blockComment lines => lines
  | _ => []

/-- The declaration of the member starts with the token. -/
structure Member.Begins (m : Member) (t : Token) : Prop where
  position : m.position = t.span.start
  line : m.header.first = t.line
  isLayout : Read.isLayout t.kind = false
  kind : t.kind ≠ .eof

/-- The member is read from the tokens of its declaration, `head`, and those
of its body with the `end` that closes it, `body`. -/
structure Member.Spans (limits : Limits) (m : Member) (head body : List Token) : Prop where
  quiet : Quiet [] head []
  first : ∃ t, head.head? = some t ∧ m.Begins t
  body : match m.body? with
    | none => body = []
    | some _ => ∃ name inner close, Body.splitAtEnd limits.nesting name 0 body = .ok (inner, close, [])

/-- A stretch of the tokens of a class file. -/
inductive Stretch where
  /-- Line ends, separators and comments between statements. -/
  | layout (ts : List Token)
  /-- A part of the header of a class or of a block, or the `end` of one. -/
  | header (ts : List Token)
  | member (m : Member) (head body : List Token)

namespace Stretch

def tokens : Stretch → List Token
  | layout ts => ts
  | header ts => ts
  | member _ head body => head ++ body

/-- The tokens that stand between statements. -/
def between : Stretch → List Token
  | layout ts => ts
  | _ => []

def member? : Stretch → Option Member
  | member m _ _ => some m
  | _ => none

def Valid (limits : Limits) : Stretch → Prop
  | layout ts => ∀ t ∈ ts, Read.isLayout t.kind
  | header ts => Quiet [] ts []
  | member m head body => m.Spans limits head body

end Stretch

namespace Read

variable {α : Type} {text : Text} {limits : Limits} {r₀ r₁ r : Reader}
  {t : Token} {isAbstract : Bool} {m : Read α} {w : Keyword}

/-! ## Members -/

/-- What stands before a declaration: its first token `t` is next. -/
def Before (text : Text) (t : Token) (r₁ r : Reader) : Prop := r = r₁ ∧ At text [] r ∧ Fresh r ∧ Sees t r

/-- From `r₁` on, the reader has passed the tokens of a member. -/
structure Declared (text : Text) (limits : Limits) (r₁ : Reader) (m : Member) (r : Reader) : Prop where
  place : At text [] r
  comments : r.comments = r₁.comments
  spans : ∃ head body, r₁.ahead = head ++ body ++ r.ahead ∧ m.Spans limits head body

/-- A member starts with the token `t` and has no body. -/
structure Starts (t : Token) (m : Member) : Prop where
  position : m.position = t.span.start
  line : m.header.first = t.line
  body : m.body? = none

/-- A declaration that is a statement of its own is not empty, since its first token ends no statement. -/
theorem declared_of_statement {m : Read Member} (ht : endsStatement t.kind = false)
    (hmoved : Triple (Moved text [] r₁ []) m fun a r => a.WellFormed text ∧ Moved text [] r₁ [] r ∧ Ends r)
    (hstarts : Triple (Sees t) m fun a _ => Starts t a) :
    Triple (Before text t r₁) m (Declared text limits r₁) := by
  rintro r a r' ⟨rfl, hat, hfresh, hsees⟩ hrun
  obtain ⟨hposition, hline, hbody⟩ := hstarts hsees hrun
  obtain ⟨-, ⟨hplace, ⟨run, hahead, hquiet⟩, hcomments⟩, u, hu, hends⟩ := hmoved (.refl hat) hrun
  obtain ⟨rest, hrest⟩ := hfresh.sees hsees
  have hbegins : a.Begins t := by
    refine ⟨hposition, hline, hfresh t (by rw [hrest]; rfl), fun heof => ?_⟩
    rw [heof] at ht
    cases ht
  refine ⟨hplace, hcomments, run, [], by rw [append_nil, hahead], hquiet, ⟨t, ?_, hbegins⟩, by rw [hbody]⟩
  cases run with
  | nil =>
    rw [nil_append] at hahead
    rw [Sees, ← hahead] at hu
    rw [Sees, hu, Option.some.injEq] at hsees
    rw [hsees, ht] at hends
    cases hends
  | cons v run =>
    rw [hrest, cons_append, List.cons.injEq] at hahead
    rw [hahead.1]
    rfl

theorem expectIdentifier_token {what : Text} :
    Triple (Sees t) (expectIdentifier what) fun x _ => x.1 = t :=
  .identifier fun _ _ _ _ _ _ hr _ => Option.some.inj (hr.2.symm.trans hr.1)

theorem property_starts : Triple (Sees t) (property text) fun m _ => Starts t m := by
  refine expectIdentifier_token.bind fun x => .given fun hx => .skip fun type => .skip fun assigned => ?_
  extract_lets ended
  have hended (value : Option Text) : Triple (fun _ => True) (ended value) fun m _ => Starts t m := by
    refine lastLine_spec.bind fun _ => endStatement_spec.bind fun _ => .pure fun _ _ => ?_
    exact ⟨by rw [← hx], by rw [← hx], rfl⟩
  exact .ite (fun _ => .skip fun _ => .skip hended) fun _ => .skip hended

theorem event_starts : Triple (Sees t) event fun m _ => Starts t m := by
  refine expectIdentifier_token.bind fun x => .given fun hx =>
    .skip fun _ => .skip fun _ => .pure fun _ _ => ?_
  exact ⟨by rw [← hx], by rw [← hx], rfl⟩

theorem prototype_starts : Triple (Sees t) (prototype isAbstract) fun m _ => Starts t m := by
  refine Triple.bind (peek_spec.mono fun u _ hr => Option.some.inj (hr.2.symm.trans hr.1)) fun u =>
    .given fun hu => ?_
  refine .skip fun s => .skip fun _ => .skip fun _ => .pure fun _ _ => ?_
  exact ⟨by rw [← hu]; rfl, by rw [← hu]; rfl, rfl⟩

theorem quiet_of_structural? (hword : structural? t.kind = some w) : Quiet [] [t] [] :=
  .single (by simp [isComment_of_structural? hword]) (after_of_structural? hword).2

/-- From `r₁` on, the reader has passed one token. -/
structure Passed (text : Text) (t : Token) (r₁ r : Reader) : Prop where
  place : At text [] r
  ahead : r₁.ahead = t :: r.ahead
  last : r.last = some t
  comments : r.comments = r₁.comments

theorem advance_passed (hword : structural? t.kind = some w) :
    Triple (Before text t r₁) advance fun a r => a = t ∧ Passed text t r₁ r := by
  rintro r a r' ⟨rfl, hat, hfresh, hsees⟩ hrun
  obtain ⟨hkind, hafter⟩ := after_of_structural? hword
  obtain ⟨rest, hrest⟩ := hfresh.sees hsees
  have htail : Ahead text [] rest := (hrest ▸ hat : Ahead text [] (t :: rest)).tail hkind hafter
  cases (advance_of_ahead hrest hsees.isContinuation htail.ne_nil).symm.trans hrun
  exact ⟨rfl, htail, hrest, rfl, rfl⟩

/-- From `r₁` on, the reader has passed `t` and more of a header. -/
structure Led (text : Text) (t : Token) (r₁ r : Reader) : Prop where
  place : At text [] r
  comments : r.comments = r₁.comments
  exists_run : ∃ run, r₁.ahead = t :: run ++ r.ahead ∧ Quiet [] (t :: run) []

theorem Passed.led (h : Passed text t r₁ r) (hquiet : Quiet [] [t] []) : Led text t r₁ r :=
  ⟨h.place, h.comments, [], h.ahead, hquiet⟩

theorem led_moved (h : ∀ r₂, Triple (Moved text [] r₂ []) m fun _ r => Moved text [] r₂ [] r) :
    Triple (Led text t r₁) m fun _ r => Led text t r₁ r := by
  rintro r a r' ⟨hat, hcomments, run, hahead, hquiet⟩ hrun
  obtain ⟨hplace, ⟨more, hmore, hquiet'⟩, hcomments'⟩ := h r (.refl hat) hrun
  refine ⟨hplace, hcomments'.trans hcomments, run ++ more, ?_, hquiet.append hquiet'⟩
  rw [hahead, hmore]
  simp

/-- A body runs up to its `end`. -/
theorem body_led {limit : Nat} {name : Text} :
    Triple (Led text t r₁) (body limit text name) fun _ r => r.comments = r₁.comments ∧
      ∃ head bd inner close, r₁.ahead = head ++ bd ++ r.ahead ∧ Quiet [] head [] ∧ head.head? = some t ∧
        Body.splitAtEnd limit name 0 bd = .ok (inner, close, []) := by
  rintro r b s ⟨-, hcomments, run, hahead, hquiet⟩ hrun
  obtain ⟨inner, close, rest, pieces, hsplit, -, -, rfl⟩ := body_eq_ok_iff.1 hrun
  obtain ⟨happend, -, hsame⟩ := Body.splitAtEnd_append hsplit
  refine ⟨hcomments, t :: run, inner ++ [close], inner, close, ?_, hquiet, rfl, hsame []⟩
  rw [hahead, happend]
  simp

theorem begins_methodOf (hword : structural? t.kind = some w) (s : Signature) (body : Option Body)
    (isAbstract : Bool) (last : Nat) : (methodOf s body isAbstract ⟨t.line, last⟩ t).Begins t := by
  refine ⟨rfl, rfl, ?_, (after_of_structural? hword).1⟩
  cases hk : t.kind <;> simp_all [structural?, isLayout]

theorem functionMember_declared (hword : structural? t.kind = some w) :
    Triple (Before text t r₁) (functionMember limits text isAbstract) (Declared text limits r₁) := by
  obtain ⟨hk, hafter⟩ := after_of_structural? hword
  have hplace : Triple (Before text t r₁) (functionMember limits text isAbstract) fun _ r => At text [] r :=
    (functionMember_spec hk hafter).weaken (fun _ hr => ⟨hr.2.1, t, hr.2.2.2, rfl⟩) fun _ _ hr => hr.2
  suffices hspans : Triple (Before text t r₁) (functionMember limits text isAbstract) fun m r =>
      r.comments = r₁.comments ∧ ∃ head body, r₁.ahead = head ++ body ++ r.ahead ∧
        m.Spans limits head body from
    (hplace.both hspans).mono fun _ _ hr => ⟨hr.1, hr.2.1, hr.2.2⟩
  refine (advance_passed hword).bind fun first => .assume fun hfirst => ?_
  obtain rfl : t = first := hfirst.symm
  refine ((led_moved fun _ => signature_moved.mono fun _ _ hr => hr.2.toMoved).pre fun _ hr =>
    hr.led (quiet_of_structural? hword)).bind fun s => ?_
  refine lastLine_spec.bind fun _ => endHeader_spec.bind fun _ => ?_
  refine .ite (fun _ => ?_) fun _ => ?_
  · refine (Triple.pure (Q := fun o r => o = none ∧ Led text t r₁ r) fun _ hr => ⟨rfl, hr⟩).bind
      fun body => .assume fun hbody => .pure fun r hr => ⟨hr.comments, ?_⟩
    obtain ⟨run, hahead, hquiet⟩ := hr.exists_run
    refine ⟨_, [], by rw [append_nil, hahead], hquiet, ⟨_, rfl, begins_methodOf hword s _ _ _⟩, ?_⟩
    rw [hbody]
    rfl
  · have hsome : Triple (Led text t r₁) (some <$> body limits.nesting text s.name) fun o r => o.isSome ∧
        r.comments = r₁.comments ∧ ∃ head bd inner close, r₁.ahead = head ++ bd ++ r.ahead ∧
        Quiet [] head [] ∧
          head.head? = some t ∧ Body.splitAtEnd limits.nesting s.name 0 bd = .ok (inner, close, []) :=
      .map (body_led.mono fun _ _ hr => ⟨rfl, hr⟩)
    refine hsome.bind fun body => .pure fun r hr => ?_
    obtain ⟨hbody, hcomments, head, bd, inner, close, hahead, hquiet, hhead, hend⟩ := hr
    obtain ⟨b, rfl⟩ := Option.isSome_iff_exists.1 hbody
    exact ⟨hcomments, head, bd, hahead, hquiet, ⟨_, hhead, begins_methodOf hword s _ _ _⟩,
      s.name, inner, close, hend⟩

/-! ## Courses -/

/-- From `r₀` on, the reader has passed the stretches `ss` and has recorded the comments of their layout. -/
structure Covers (text : Text) (limits : Limits) (r₀ : Reader) (ss : List Stretch) (r : Reader) : Prop where
  place : At text [] r
  ahead : r₀.ahead = ss.flatMap (·.tokens) ++ r.ahead
  comments : r.comments = r₀.comments ++ (ss.flatMap (·.between)).filterMap ofToken?
  valid : ∀ s ∈ ss, s.Valid limits

theorem Covers.refl (h : At text [] r) : Covers text limits r [] r := ⟨h, rfl, by simp, by simp⟩

theorem Covers.trans {ss ss' : List Stretch} (h : Covers text limits r₀ ss r₁)
    (h' : Covers text limits r₁ ss' r) :
    Covers text limits r₀ (ss ++ ss') r := by
  refine ⟨h'.place, ?_, ?_, ?_⟩
  · rw [h.ahead, h'.ahead, flatMap_append, append_assoc]
  · rw [h'.comments, h.comments, flatMap_append, filterMap_append, append_assoc]
  · exact forall_mem_append.2 ⟨h.valid, h'.valid⟩

theorem Moved.covers (h : Moved text [] r₁ [] r) : ∃ run, Covers text limits r₁ [.header run] r := by
  obtain ⟨run, hahead, hquiet⟩ := h.exists_run
  exact ⟨run, h.place, by simpa [Stretch.tokens] using hahead, by simp [h.comments, Stretch.between],
    by simpa [Stretch.Valid] using hquiet⟩

theorem Passed.covers (h : Passed text t r₁ r) (hquiet : Quiet [] [t] []) :
    Covers text limits r₁ [.header [t]] r :=
  ⟨h.place, by simpa [Stretch.tokens] using h.ahead, by simp [h.comments, Stretch.between],
    by simpa [Stretch.Valid] using hquiet⟩

theorem Declared.covers {m : Member} (h : Declared text limits r₁ m r) :
    ∃ head body, Covers text limits r₁ [.member m head body] r := by
  obtain ⟨head, body, hahead, hspans⟩ := h.spans
  exact ⟨head, body, h.place, by simpa [Stretch.tokens] using hahead, by simp [h.comments, Stretch.between],
    by simpa [Stretch.Valid] using hspans⟩

theorem skipLayout_covers : Triple (fun r => r = r₁ ∧ At text [] r) (skipLayout true)
    fun _ r => ∃ ts, Covers text limits r₁ [.layout ts] r := by
  rintro r _ r' ⟨rfl, hat⟩ hrun
  have hplace := skipLayout_spec hat hrun
  cases hrun
  refine ⟨r.ahead.takeWhile (isLayout ·.kind), hplace, ?_, ?_, ?_⟩
  · simp [Stretch.tokens]
  · simp [Stretch.between]
  · simp only [mem_singleton, forall_eq, Stretch.Valid]
    exact fun t ht => by simpa using mem_takeWhile_imp ht

/-- From `r₀` on, the reader has passed stretches with the members `ms`. -/
def Course (text : Text) (limits : Limits) (r₀ : Reader) (ms : List Member) (r : Reader) : Prop :=
  ∃ ss, Covers text limits r₀ ss r ∧ ss.filterMap (·.member?) = ms

variable {ms : List Member}

theorem Course.at (h : Course text limits r₀ ms r) : At text [] r := by
  obtain ⟨ss, hcovers, -⟩ := h
  exact hcovers.place

theorem Course.trans {ss : List Stretch} (h : Course text limits r₀ ms r₁) (h' : Covers text limits r₁ ss r) :
    Course text limits r₀ (ms ++ ss.filterMap (·.member?)) r := by
  obtain ⟨ss₀, hcovers, rfl⟩ := h
  exact ⟨ss₀ ++ ss, hcovers.trans h', filterMap_append⟩

/-- A course goes on with a part of a header, and with layout. -/
theorem kept_course : Kept text (Course text limits r₀ ms) where
  place _ hr := hr.at
  moved r r' hr hmoved := by
    obtain ⟨run, hcovers⟩ : ∃ run, Covers text limits r [.header run] r' := hmoved.covers
    simpa [Stretch.member?] using hr.trans hcovers
  layout r _ r' hr hrun := by
    obtain ⟨ts, hcovers⟩ : ∃ ts, Covers text limits r [.layout ts] r' := skipLayout_covers ⟨rfl, hr.at⟩ hrun
    simpa [Stretch.member?] using hr.trans hcovers

theorem member?_course {kind : BlockKind} :
    Triple (Course text limits r₀ ms) (member? limits text kind isAbstract)
      fun o r => Course text limits r₀ (ms ++ o.toList) r := by
  intro r o s hr hrun
  cases member?_meeting rfl hrun with
  | close hq hword htake =>
    have hend := Triple.discard (R := fun _ => Course text limits r₀ ms) (kept_course.takeWord hword)
      ⟨kept_course.layout hr hq.skip, hq.sees⟩ htake
    simpa using hend
  | @item t q s x m hq hx hm =>
    suffices h : Triple (Before text t q) x (Declared text limits q) by
      have hcourse := kept_course.layout hr hq.skip
      obtain ⟨head, body, hcovers⟩ := (h ⟨rfl, hcourse.at, hq.fresh, hq.sees⟩ hm).covers
      simpa [Stretch.member?] using hcourse.trans hcovers
    cases hx with
    | function hword => exact functionMember_declared hword
    | property _ ht => exact declared_of_statement ht property_moved property_starts
    | event _ ht => exact declared_of_statement ht event_moved event_starts
    | prototype _ ht => exact declared_of_statement ht prototype_moved prototype_starts

/-- From `r₀` on, the reader has passed a class with the members `ms` and its `end`. -/
def Closed (text : Text) (limits : Limits) (r₀ : Reader) (ms : List Member) (r : Reader) : Prop :=
  ∃ r₁ close, Course text limits r₀ ms r₁ ∧ structural? close.kind = some .close ∧
    Covers text limits r₁ [.header [close]] r ∧ r.last = some close

theorem advance_closed (hword : structural? t.kind = some .close) :
    Triple (fun r => Course text limits r₀ ms r ∧ Fresh r ∧ Sees t r) advance fun _ r =>
    Closed text limits r₀ ms r := by
  rintro r a r' ⟨hcourse, hfresh, hsees⟩ hrun
  obtain ⟨rfl, hpassed⟩ := advance_passed hword ⟨rfl, hcourse.at, hfresh, hsees⟩ hrun
  exact ⟨_, a, hcourse, hword, hpassed.covers (quiet_of_structural? hword), hpassed.last⟩

end Read

/-! ## Classes -/

/-- The stretches of a class: the layout before it, the word that opens it,
its header and its blocks, and the `end` that closes it. -/
structure ClassCourse where
  lead : List Token
  opening : Token
  inner : List Stretch
  close : Token

namespace ClassCourse

def stretches (k : ClassCourse) : List Stretch :=
  .layout k.lead :: .header [k.opening] :: (k.inner ++ [.header [k.close]])

def tokens (k : ClassCourse) : List Token := k.stretches.flatMap (·.tokens)

/-- The tokens between the statements of the class and of its blocks. -/
def between (k : ClassCourse) : List Token := k.stretches.flatMap (·.between)

/-- The class is read from the stretches. -/
structure Gives (k : ClassCourse) (limits : Limits) (c : ClassDecl) : Prop where
  valid : ∀ s ∈ k.stretches, s.Valid limits
  opening : k.opening.kind = .keyword .classdef
  line : c.header.first = k.opening.line
  members : k.inner.filterMap (·.member?) = c.members
  close : Read.structural? k.close.kind = some .close
  comments : c.comments = group (k.between.filterMap ofToken?)

end ClassCourse

namespace Read

variable {text : Text} {limits : Limits} {r₀ : Reader}

/-- A class that is closed behind its first word makes a whole course. -/
theorem Closed.exists_course {r₂ r : Reader} {ms : List Member} {lead : List Token} {opening : Token}
    (h : Closed text limits r₂ ms r) (hlead : Covers text limits r₀ [.layout lead, .header [opening]] r₂) :
    ∃ k : ClassCourse, k.opening = opening ∧ k.inner.filterMap (·.member?) = ms ∧
      structural? k.close.kind = some .close ∧ Covers text limits r₀ k.stretches r ∧
      r.last = some k.close := by
  obtain ⟨r₁, close, ⟨ss, hss, hmembers⟩, hclose, hcovers, hlast⟩ := h
  exact ⟨⟨lead, opening, ss, close⟩, rfl, hmembers, hclose, hlead.trans (hss.trans hcovers), hlast⟩

theorem classPart_course : Triple (fun r => r = r₀ ∧ At text [] r ∧ r.comments = []) (classPart limits text)
    fun c r => ∃ k : ClassCourse, k.Gives limits c ∧ r₀.ahead = k.tokens ++ r.ahead ∧ r.last = some k.close ∧
      At text [] r := by
  rw [classPart_eq_classHead]
  let lead (t : Token) (r : Reader) : Prop :=
    r₀.comments = [] ∧ ∃ lead, Covers text limits r₀ [.layout lead, .header [t]] r
  refine (classHead_kept (L := fun r => (r₀.comments = [] ∧ ∃ lead,
    Covers text limits r₀ [.layout lead] r) ∧ Fresh r)
    (J := fun t r => ∃ r₂, lead t r₂ ∧ Course text limits r₂ [] r) ?_ (fun t hkind => ?_) fun t =>
    .exists fun r₂ => kept_course.and _).bind
    fun c => .assume fun _ => .assume fun _ => .assume fun _ =>
      .exists_pre fun t => .assume fun ht => .exists_pre fun r₂ => .assume ?_
  · rintro r _ r' ⟨rfl, hat, hnone⟩ hrun
    exact ⟨⟨hnone, skipLayout_covers ⟨rfl, hat⟩ hrun⟩, skipLayout_fresh (P := fun _ => True) trivial hrun⟩
  · rintro r a r' ⟨⟨⟨hnone, lead, hlead⟩, hfresh⟩, hsees⟩ hrun
    have hword : structural? t.kind = some .classdef := by rw [hkind]; rfl
    obtain ⟨rfl, hpassed⟩ := advance_passed hword ⟨rfl, hlead.place, hfresh, hsees⟩ hrun
    exact ⟨r', ⟨hnone, lead, hlead.trans (hpassed.covers (quiet_of_structural? hword))⟩,
      [], .refl hpassed.place, rfl⟩
  rintro ⟨hnone, lead, hlead⟩
  refine (blocks_kept (I := Course text limits r₂) (A := fun _ _ _ => True) (fun _ => kept_course.passable)
    (fun _ _ _ => member?_course.mono fun _ _ hr => ⟨hr, fun _ _ => trivial⟩) fun _ _ =>
    advance_closed).bind fun blocks => ?_
  refine (Triple.get (Q := fun a r => a = r ∧ _) fun _ hr => ⟨rfl, hr⟩).bind fun a => .pure ?_
  rintro r ⟨rfl, hclosed, -⟩
  obtain ⟨k, rfl, hmembers, hclose, hcovers, hlast⟩ := hclosed.exists_course hlead
  refine ⟨k, ⟨hcovers.valid, ht.1, ht.2, hmembers, hclose, ?_⟩, hcovers.ahead, hlast, hcovers.place⟩
  rw [hcovers.comments, hnone, nil_append]
  rfl

end Read

/-- The tokens of a class file start with the stretches of its class. -/
theorem ClassDecl.course_of_parse {text : Text} {limits : Limits} {c : ClassDecl}
    (h : ClassDecl.parse limits text = .ok c) :
    ∃ tokens, scan text = .ok tokens ∧ ∃ (k : ClassCourse) (rest : List Token), tokens = k.tokens ++ rest ∧
      k.Gives limits c := by
  obtain ⟨tokens, r, hscan, hfile⟩ := ClassDecl.exists_run_of_parse h
  have hcourse : Read.Triple (fun r => r = ⟨tokens, none, []⟩ ∧ Read.At text [] r ∧ r.comments = [])
      (Read.classFile limits text) fun c _ => ∃ (k : ClassCourse) (rest : List Token),
        tokens = k.tokens ++ rest ∧
        k.Gives limits c := by
    rw [Read.classFile_eq_classPart]
    refine Read.Triple.bind (Read.classPart_course.mono fun c r hr => ?_)
      fun c => .given fun hc => .skip fun _ => .pure fun _ _ => hc
    obtain ⟨k, hk, hahead, -⟩ := hr
    exact ⟨k, r.ahead, hahead, hk⟩
  exact ⟨tokens, hscan, hcourse ⟨rfl, ahead_of_scan hscan, rfl⟩ hfile⟩

end ClassdefDoc
