import ClassdefDoc.Proofs.Parse.Course
import ClassdefDoc.Proofs.Parse.Onward

/-!
# The shape of a class

What the later passes rely on without looking: each member is of the kind of its block, an
abstract member has no body and its block says so, an accessor serves a property that the class
declares, and the declaring lines of the members follow one another (`ClassDecl.shaped_of_parse`).
A member fits its block as it is read (`Read.member?_shape`); its lines are those between the
first and the last token of its declaration, and lines rise (`Passes.rising`).
-/

namespace ClassdefDoc

open List

variable {isAbstract : Bool} {m : Member}

/-! ## Members and their blocks -/

/-- The number of parameters of an accessor, the object included. -/
def AccessorKind.arity : AccessorKind → Nat
  | get => 1
  | set => 2

/-- What holds of a member by the block it stands in. -/
structure Member.FitsIn (kind : BlockKind) (isAbstract : Bool) (m : Member) : Prop where
  kind_eq : m.kind = kind
  isAbstract_eq : ∀ d, m.method? = some d → d.isAbstract = isAbstract
  body_eq : isAbstract → m.body? = none
  name_eq : ∀ a, m.accessor? = some a → m.name = a.property

theorem Member.FitsIn.exists_method (h : m.FitsIn .methods isAbstract) :
    ∃ d, m.method? = some d ∧ d.isAbstract = isAbstract ∧ (isAbstract → d.body = none) := by
  obtain ⟨name, detail, header, position⟩ := m
  cases detail with
  | method d => exact ⟨d, rfl, h.isAbstract_eq d rfl, h.body_eq⟩
  | property | event => cases h.kind_eq

namespace Read

variable {text : Text} {limits : Limits} {n : Nat} {t : Token} {α : Type} {r : Reader}

/-! ## Lines -/

/-- Lines rise for a reader, and what is ahead starts on the line `n` or below. -/
structure Below (n : Nat) (r : Reader) : Prop where
  rising : Rising r.ahead r.last
  ahead : ∀ t ∈ r.ahead, n ≤ t.line

/-- The token taken last ends on the line `n` or below. -/
structure Reached (n : Nat) (r : Reader) : Prop extends Below n r where
  last : ∃ t, r.last = some t ∧ n ≤ t.lastLine

theorem Onward.below {m : Read α} (h : Onward m) : Triple (Below n) m fun _ r => Below n r :=
  fun _ _ _ hr hrun => ⟨(h hrun).rising hr.rising, (h hrun).above hr.ahead⟩

theorem Onward.reached {m : Read α} (h : Onward m) : Triple (Reached n) m fun _ r => Reached n r :=
  fun _ _ _ hr hrun => ⟨h.below hr.toBelow hrun, (h hrun).reached hr.ahead hr.last⟩

theorem Reached.mono {k : Nat} (h : Reached k r) (hn : n ≤ k) : Reached n r := by
  obtain ⟨t, hlast, hline⟩ := h.last
  exact ⟨⟨h.rising, fun u hu => hn.trans (h.ahead u hu)⟩, t, hlast, hn.trans hline⟩

theorem reached_of_last (h : Rising r.ahead r.last) (hlast : r.last = some t) :
    Below t.lastLine r ∧ Reached t.line r := by
  have hpairwise := h.pairwise
  rw [hlast] at hpairwise
  have hahead : ∀ u ∈ r.ahead, t.lastLine ≤ u.line := (pairwise_cons.1 hpairwise).1
  have hline : t.line ≤ t.lastLine := le_max_right _ _
  exact ⟨⟨h, hahead⟩, ⟨h, fun u hu => hline.trans (hahead u hu)⟩, t, hlast, hline⟩

theorem Sees.mem (h : Sees t r) : t ∈ r.ahead :=
  (dropWhile_suffix _).subset (mem_of_head? h)

theorem advance_reached : Triple (Below n) advance fun t r => n ≤ t.line ∧ Reached t.line r := by
  intro r t r' hr hrun
  obtain ⟨hsees, hlast⟩ := advance_last hrun
  exact ⟨hr.ahead t hsees.mem, (reached_of_last ((Onward.advance hrun).rising hr.rising) hlast).2⟩

theorem expectIdentifier_reached {what : Text} :
    Triple (Below n) (expectIdentifier what) fun x r => n ≤ x.1.line ∧ Reached x.1.line r := by
  refine .identifier fun t w _ r a r' hr hrun => ?_
  obtain rfl : a = t := Option.some.inj ((advance_last hrun).1.symm.trans hr.2)
  exact advance_reached hr.1 hrun

theorem lastLine_range : Triple (Reached n) lastLine fun k r => n ≤ k ∧ Below k r := by
  intro r k r' hr hrun
  obtain ⟨t, hlast, hline⟩ := hr.last
  rw [lastLine_run, hlast] at hrun
  cases hrun
  exact ⟨hline, (reached_of_last hr.rising hlast).1⟩

/-! ## Members -/

/-- What holds of a member that is read where the line `n` is passed, and of the reader behind it. -/
structure Stands (kind : BlockKind) (isAbstract : Bool) (n : Nat) (m : Member) (r : Reader) : Prop where
  fits : m.FitsIn kind isAbstract
  first : n ≤ m.header.first
  last : m.header.first ≤ m.header.last
  below : Below m.header.last r

theorem property_stands : Triple (Below n) (property text) (Stands .properties isAbstract n) := by
  refine expectIdentifier_reached.bind fun x => .assume fun hfirst => ?_
  refine Onward.propertyType.reached.bind fun type => Onward.sees.reached.bind fun assigned => ?_
  extract_lets ended
  have hended (value : Option Text) :
      Triple (Reached x.1.line) (ended value) (Stands .properties isAbstract n) := by
    refine lastLine_range.bind fun last => .assume fun hlast =>
      Onward.endStatement.below.bind fun _ => .pure fun r hr => ?_
    exact ⟨⟨rfl, by rintro _ ⟨⟩, fun _ => rfl, by rintro _ ⟨⟩⟩, hfirst, hlast, hr⟩
  refine .ite (fun _ => ?_) fun _ => (Triple.pure fun _ hr => hr).bind hended
  exact Onward.advance.discard.reached.bind fun _ => Onward.defaultValue.map.reached.bind hended

theorem event_stands : Triple (Below n) event (Stands .events isAbstract n) := by
  refine expectIdentifier_reached.bind fun x => .assume fun hfirst => lastLine_range.bind fun last => ?_
  refine .assume fun hlast => Onward.endStatement.below.bind fun _ => .pure fun r hr => ?_
  exact ⟨⟨rfl, by rintro _ ⟨⟩, fun _ => rfl, by rintro _ ⟨⟩⟩, hfirst, hlast, hr⟩

/-- The name of an accessor is that of its property. -/
def Signature.Named (s : Signature) : Prop := ∀ a, s.accessor = some a → s.name = a.property

theorem signature_stands : Triple (Below n) signature fun s r => s.Named ∧ Reached n r := by
  refine Onward.returnNames.below.bind fun returns => ?_
  refine Triple.bind (Q := fun _ r => Reached n r) ?_ fun first => ?_
  · exact expectIdentifier_reached.mono fun x r hr => hr.2.mono hr.1
  refine (Onward.many Onward.segment).reached.bind fun rest => Onward.sees.reached.bind fun b => ?_
  have hnamed (params : List Text) : Signature.Named ⟨((accessorOf (first.2 :: rest)).map (·.property)).getD
      (Text.joinWith "." (first.2 :: rest)), accessorOf (first.2 :: rest), params, returns⟩ := by
    intro a ha
    change accessorOf (first.2 :: rest) = some a at ha
    simp only [ha, Option.map_some, Option.getD_some]
  refine .ite (fun _ => ?_) fun _ => ?_
  · exact Onward.advance.discard.reached.bind fun _ => Onward.names.reached.bind fun params =>
      .pure fun _ hr => ⟨hnamed params, hr⟩
  · refine (Triple.pure (Q := fun _ r => Reached n r) fun _ hr => hr).bind fun params => ?_
    exact .pure fun _ hr => ⟨hnamed params, hr⟩

theorem fitsIn_methodOf {s : Signature} (hs : s.Named) {body : Option Body}
    (hbody : isAbstract → body = none) (header : LineRange) (first : Token) :
    (methodOf s body isAbstract header first).FitsIn .methods isAbstract :=
  ⟨rfl, by rintro _ ⟨⟩; rfl, hbody, hs⟩

theorem functionMember_stands :
    Triple (Below n) (functionMember limits text isAbstract) (Stands .methods isAbstract n) := by
  refine advance_reached.bind fun first => .assume fun hfirst => ?_
  refine (signature_stands.pre fun _ hr => hr.toBelow).bind fun s => .assume fun hs => ?_
  refine lastLine_range.bind fun last => .assume fun hlast => Onward.endHeader.below.bind fun _ => ?_
  refine .ite (fun _ => ?_) fun hconcrete => ?_
  · refine (Triple.pure (Q := fun o r => o = none ∧ Below last r) fun _ hr => ⟨rfl, hr⟩).bind
      fun body => .assume fun hbody => .pure fun r hr => ?_
    exact ⟨fitsIn_methodOf hs (fun _ => hbody) _ _, hfirst, hlast, hr⟩
  · refine Onward.body.map.below.bind fun body => .pure fun r hr => ?_
    exact ⟨fitsIn_methodOf hs (fun h => absurd h hconcrete) _ _, hfirst, hlast, hr⟩

/-- Behind layout the next token is the first one ahead, and the others start on its line or below. -/
theorem Below.fresh (h : Below n r) (hfresh : Fresh r) (hsees : Sees t r) : Below t.line r := by
  obtain ⟨rest, hrest⟩ := hfresh.sees hsees
  refine ⟨h.rising, ?_⟩
  have hpairwise := (pairwise_append.1 h.rising.pairwise).2.1
  rw [hrest] at hpairwise ⊢
  refine forall_mem_cons.2 ⟨le_rfl, fun u hu => ?_⟩
  exact (le_max_right _ _).trans ((pairwise_cons.1 hpairwise).1 u hu)

theorem prototype_stands :
    Triple (fun r => Below n r ∧ Fresh r) (prototype isAbstract) (Stands .methods isAbstract n) := by
  refine peek_spec.bind fun first => Triple.pre (P := fun r => n ≤ first.line ∧ Below first.line r)
    (.assume fun hfirst => ?_) fun r hr => ⟨hr.1.1.ahead first hr.2.mem, hr.1.1.fresh hr.1.2 hr.2⟩
  refine signature_stands.bind fun s => .assume fun hs => lastLine_range.bind fun last =>
    .assume fun hlast => ?_
  refine Onward.endStatement.below.bind fun _ => .pure fun r hr => ?_
  exact ⟨fitsIn_methodOf hs (fun _ => rfl) _ _, hfirst, hlast, hr⟩

/-! ## Blocks -/

/-- The members that have been read stand on lines that follow one another, and the reader is behind them. -/
structure Ranged (ms : List Member) (r : Reader) : Prop where
  rising : Rising r.ahead r.last
  ranges : ∀ m ∈ ms, m.header.first ≤ m.header.last
  order : ms.Pairwise fun m m' => m.header.last ≤ m'.header.first
  ahead : ∀ m ∈ ms, ∀ t ∈ r.ahead, m.header.last ≤ t.line

variable {ms : List Member} {kind : BlockKind} {isAbstract : Bool}

theorem Onward.ranged {x : Read α} (h : Onward x) : Triple (Ranged ms) x fun _ r => Ranged ms r :=
  fun _ _ _ hr hrun => ⟨(h hrun).rising hr.rising, hr.ranges,
    hr.order, fun m hm => (h hrun).above (hr.ahead m hm)⟩

/-- One more member. -/
theorem ranged_member {P : Reader → Prop} {x : Read Member}
    (h : ∀ n, Triple (fun r => Below n r ∧ P r) x (Stands kind isAbstract n)) :
    Triple (fun r => Ranged ms r ∧ P r) x fun m r => Ranged (ms ++ [m]) r ∧ m.FitsIn kind isAbstract := by
  rintro r m r' ⟨hr, hP⟩ hrun
  have hstands (n : Nat) (hn : ∀ t ∈ r.ahead, n ≤ t.line) : Stands kind isAbstract n m r' :=
    h n ⟨⟨hr.rising, hn⟩, hP⟩ hrun
  obtain ⟨hfits, -, hlast, hbelow⟩ := hstands 0 fun _ _ => Nat.zero_le _
  have hbefore : ∀ a ∈ ms, a.header.last ≤ m.header.first := fun a ha => (hstands _ (hr.ahead a ha)).first
  refine ⟨⟨hbelow.rising, ?_, ?_, ?_⟩, hfits⟩
  · exact forall_mem_append.2 ⟨hr.ranges, by simpa using hlast⟩
  · exact pairwise_append.2 ⟨hr.order, pairwise_singleton _ _, by simpa using hbefore⟩
  · refine forall_mem_append.2 ⟨fun a ha t ht => ?_, by simpa using hbelow.ahead⟩
    exact ((hbefore a ha).trans hlast).trans (hbelow.ahead t ht)

theorem member?_shape : Triple (Ranged ms) (member? limits text kind isAbstract) fun o r =>
    Ranged (ms ++ o.toList) r ∧ ∀ m ∈ o.toList, m.FitsIn kind isAbstract := by
  intro r o s hr hrun
  cases member?_meeting rfl hrun with
  | close hq _ htake => simpa using Onward.advance.discard.ranged (Onward.skipLayout.ranged hr hq.skip) htake
  | @item t q s x m hq hx hm =>
    have hstands (n : Nat) : Triple (fun r => Below n r ∧ Fresh r) x (Stands kind isAbstract n) := by
      cases hx with
      | function => exact functionMember_stands.pre fun _ hr => hr.1
      | property => exact property_stands.pre fun _ hr => hr.1
      | event => exact event_stands.pre fun _ hr => hr.1
      | prototype => exact prototype_stands
    simpa using ranged_member hstands ⟨Onward.skipLayout.ranged hr hq.skip, hq.fresh⟩ hm

/-- The members of some blocks fit in them and follow one another. -/
structure Regular (bs : List Block) : Prop where
  fits : ∀ b ∈ bs, ∀ m ∈ b.members, m.FitsIn b.kind b.isAbstract
  ranges : ∀ m ∈ bs.flatMap (·.members), m.header.first ≤ m.header.last
  order : (bs.flatMap (·.members)).Pairwise fun m m' => m.header.last ≤ m'.header.first

theorem passable_ranged : Passable text (Ranged ms) :=
  ⟨fun _ => Onward.advance.ranged.pre fun _ hr => hr.1, Onward.attributes.ranged, Onward.skipLayout.ranged⟩

theorem blocks_shape {name : Text} :
    Triple (Ranged []) (many (block? limits text name)) fun bs _ => Regular bs := by
  refine (blocks_kept (I := Ranged) (C := Ranged) (fun _ => passable_ranged) (fun _ _ _ =>
    member?_shape) fun _ _ _ => ?_).mono
    fun bs _ hr => ⟨hr.2, hr.1.ranges, hr.1.order⟩
  exact Onward.advance.ranged.pre fun _ hr => hr.1

theorem classFile_shape : Triple (Ranged []) (classFile limits text) fun c _ => Regular c.blocks := by
  rw [classFile_eq_classPart, classPart_eq_classHead]
  refine Triple.bind (Q := fun c _ => Regular c.blocks) (Onward.classHead.ranged.bind fun c => ?_)
    fun c => .given fun hc => .skip fun _ => .pure fun _ _ => hc
  exact blocks_shape.bind fun bs => .given fun hbs => .skip fun _ => .pure fun _ _ => hbs

end Read

/-! ## Classes -/

namespace ClassDecl

variable {text : Text} {limits : Limits} {c : ClassDecl}

theorem regular_of_parse (h : ClassDecl.parse limits text = .ok c) : Read.Regular c.blocks := by
  obtain ⟨tokens, r, hscan, hfile⟩ := ClassDecl.exists_run_of_parse h
  refine Read.classFile_shape ⟨rising_of_ahead (ahead_of_scan hscan), ?_, ?_, ?_⟩ hfile <;> simp

/-- An accessor without a fault serves a property of the class and takes what it needs. -/
theorem accessor_of_no_fault {d : Method} {a : Accessor} (h : c.accessorFault? m = none)
    (hd : m.method? = some d) (ha : d.accessor = some a) :
    c.hasProperty a.property ∧ d.params.length = a.kind.arity := by
  obtain ⟨name, detail, header, position⟩ := m
  cases detail with
  | property | event => cases hd
  | method d' =>
    cases hd
    obtain ⟨params, returns, body, isAbstract, accessor⟩ := d
    subst ha
    simp only [accessorFault?] at h
    split_ifs at h with hproperty hparams
    refine ⟨by simpa using hproperty, ?_⟩
    simp only [ne_eq, not_not] at hparams
    rw [hparams]
    cases a.kind <;> rfl

/-- What can be relied on in a class that has been read. -/
structure Shaped (c : ClassDecl) : Prop where
  kind : ∀ b ∈ c.blocks, ∀ m ∈ b.members, m.kind = b.kind
  /-- Properties and events have no body, no parameters, no return values and no accessor. -/
  plain : ∀ m ∈ c.members, m.kind ≠ .methods → m.method? = none
  isAbstract : ∀ b ∈ c.blocks, ∀ m ∈ b.members, ∀ d, m.method? = some d → d.isAbstract →
    b.kind = .methods ∧ Attribute.anyAsserted b.attributes "Abstract" ∧ d.body = none
  /-- An accessor is called like a property that some block of the class declares. -/
  accessor : ∀ m ∈ c.members, ∀ d a, m.method? = some d → d.accessor = some a →
    m.name = a.property ∧ (∃ b ∈ c.blocks, b.kind = .properties ∧ ∃ p ∈ b.members, p.name = a.property) ∧
      d.params.length = a.kind.arity
  /-- A declaration ends where the next one starts, or above. -/
  lines : c.members.IsChain fun m m' => m.header.last ≤ m'.header.first
  ranges : ∀ m ∈ c.members, m.header.first ≤ m.header.last

/-- Every class that is read has its shape. -/
theorem shaped_of_parse (h : ClassDecl.parse limits text = .ok c) : c.Shaped := by
  obtain ⟨hfits, hranges, horder⟩ := regular_of_parse h
  obtain ⟨tokens, -, htokens⟩ := ClassDecl.parse_eq_ok_iff.1 h
  obtain ⟨-, -, hfault⟩ := ClassDecl.ofTokens_eq_ok_iff.1 htokens
  refine ⟨fun b hb m hm => (hfits b hb m hm).kind_eq, ?_, ?_, ?_, horder.isChain, hranges⟩
  · rintro ⟨name, detail, header, position⟩ - hkind
    cases detail with
    | method d => exact absurd rfl hkind
    | property | event => rfl
  · intro b hb m hm d hd habstract
    obtain ⟨-, hsame, hbody, -⟩ := hfits b hb m hm
    have hblock : b.isAbstract = true := (hsame d hd).symm.trans habstract
    obtain ⟨hkind, hasserted⟩ := Bool.and_eq_true_iff.1 hblock
    refine ⟨beq_iff_eq.1 hkind, hasserted, ?_⟩
    simpa [Member.body?, hd] using hbody hblock
  · intro m hm d a hd ha
    obtain ⟨b, hb, hmb⟩ := List.mem_flatMap.1 hm
    obtain ⟨hproperty, hparams⟩ := accessor_of_no_fault (List.findSome?_eq_none_iff.1 hfault m hm) hd ha
    refine ⟨(hfits b hb m hmb).name_eq a (by simp [Member.accessor?, hd, ha]), ?_, hparams⟩
    obtain ⟨p, hp, hpname⟩ := List.any_eq_true.1 hproperty
    obtain ⟨b', hb', hpb⟩ := List.mem_flatMap.1 hp
    simp only [Bool.and_eq_true, beq_iff_eq] at hpname
    exact ⟨b', hb', ((hfits b' hb' p hpb).kind_eq.symm.trans hpname.1), p, hpb, hpname.2⟩

/-- Accessors above the property they serve, abstract methods and a value of two lines. -/
def accessorText : Text :=
  "classdef A\nmethods\nfunction v = get.x(a)\nend\nfunction a = set.x(a, v)\nend\nend\nproperties\nx = [1 ...\n2]; y\nend\nmethods (Abstract)\nfunction f(a)\ng(a)\nend\nevents\nz\nend\nend\n"

theorem shaped_accessors : ∃ c, ClassDecl.parse {} accessorText = .ok c ∧
    c.members.map (·.name) = [['x'], ['x'], ['x'], ['y'], ['f'], ['g'], ['z']] ∧
    c.members.map (·.header) = [⟨3, 3⟩, ⟨5, 5⟩, ⟨9, 10⟩, ⟨10, 10⟩, ⟨13, 13⟩, ⟨14, 14⟩, ⟨17, 17⟩] ∧
    c.Shaped := by
  obtain ⟨c, hc⟩ := exists_of_isOk (x := ClassDecl.parse {} accessorText) (by decide +kernel)
  refine ⟨c, hc, ?_, ?_, shaped_of_parse hc⟩
  all_goals
    revert c
    decide +kernel

end ClassDecl

end ClassdefDoc
