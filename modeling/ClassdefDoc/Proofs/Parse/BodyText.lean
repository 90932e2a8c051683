import ClassdefDoc.Proofs.Balance.Body
import ClassdefDoc.Proofs.Parse.Header
import ClassdefDoc.Proofs.Parse.Resync
import ClassdefDoc.Proofs.Scan.Lossless

/-!
# The text of a body

A body keeps its text: `Body.Restores` puts it together again from the pieces and from the tokens that are no
code. Nothing but the layout of a continuation without a remark is left out of the pieces. The code between
the other pieces is in one piece, is not empty, and holds no double quote (`ClassDecl.body_restored`).
-/

namespace ClassdefDoc

open List

variable {own pieces : List BodyPiece} {s s' : Scanner} {past ahead text : Text} {ts : List Token}

namespace TokenKind

/-- Kinds that are cut out of the code of a body. -/
def isCutOut : TokenKind → Bool
  | comment _ | blockComment _ | literal _ _ | continuation _ => true
  | _ => false

/-- The decoded value of a literal. -/
def literal? : TokenKind → Option Text
  | literal _ value => some value
  | _ => none

end TokenKind

namespace BodyPiece

def literal? : BodyPiece → Option Text
  | literal value => some value
  | _ => none

end BodyPiece

namespace Body

/-- The text that the pieces were cut out of, with the tokens that are no code. A piece of a
comment or a literal is written as its token. The points of a continuation are code; behind
them stands its remark, which is a piece, or nothing but layout, which the code leaves out. -/
inductive Restores : List Token → List BodyPiece → Text → Prop
  | nil : Restores [] [] []
  | code {ts pieces w} (t : Text) : Restores ts pieces w → Restores ts (.code t :: pieces) (t ++ w)
  | comment {t ts pieces w line} : t.kind = .comment line → Restores ts pieces w →
    Restores (t :: ts) (.comment [line] :: pieces) (t.lexeme ++ w)
  | blockComment {t ts pieces w lines} : t.kind = .blockComment lines → Restores ts pieces w →
    Restores (t :: ts) (.comment lines :: pieces) (t.lexeme ++ w)
  | literal {t ts pieces w quote value} : t.kind = .literal quote value → Restores ts pieces w →
    Restores (t :: ts) (.literal value :: pieces) (t.lexeme ++ w)
  | remark {t ts pieces w remark} (before : Text) : t.kind = .continuation remark →
    Text.isBlank remark = false → Restores ts pieces w →
    Restores (t :: ts) (.code (before ++ "...".toList) :: .comment [remark] :: pieces)
    (before ++ "...".toList ++ remark ++ w)
  | bare {t ts pieces w layout} (before behind : Text) : t.kind = .continuation layout → Text.isBlank layout →
    Restores ts (.code behind :: pieces) w →
    Restores (t :: ts) (.code (before ++ "...".toList ++ behind) :: pieces)
    (before ++ "...".toList ++ layout ++ w)

namespace Restores

variable {t : Token} {ts : List Token} {pieces : List BodyPiece} {w : Text}

theorem prepend {u : Text} (v : Text) (h : Restores ts (.code u :: pieces) w) :
    Restores ts (.code (v ++ u) :: pieces) (v ++ w) := by
  cases h with
  | code _ h => simpa only [append_assoc] using Restores.code (v ++ u) h
  | remark before hkind hblank h =>
    simpa only [append_assoc] using Restores.remark (v ++ before) hkind hblank h
  | bare before behind hkind hblank h =>
    simpa only [append_assoc] using Restores.bare (v ++ before) behind hkind hblank h

/-- Each literal gives one piece, in order. -/
theorem literals (h : Restores ts pieces w) :
    pieces.filterMap (·.literal?) = ts.filterMap (·.kind.literal?) := by
  induction h with
  | nil => rfl
  | code _ _ ih => exact ih
  | literal hkind _ ih | comment hkind _ ih | blockComment hkind _ ih | remark _ hkind _ _ ih
  | bare _ _ hkind _ _ ih =>
    simpa [filterMap_cons, BodyPiece.literal?, TokenKind.literal?, hkind] using ih

theorem joinCode_code (v : Text) (h : Restores ts (joinCode pieces) w) :
    Restores ts (joinCode (.code v :: pieces)) (v ++ w) := by
  cases v with
  | nil => exact h
  | cons c v =>
    simp only [joinCode]
    split
    · rename_i u more hjoined
      exact (hjoined ▸ h).prepend _
    · exact .code _ h

/-- A continuation with nothing but layout behind its points. -/
theorem joinCode_bare {layout : Text} (hkind : t.kind = .continuation layout) (hblank : Text.isBlank layout)
    (h : Restores ts (joinCode pieces) w) :
    Restores (t :: ts) (joinCode (.code "...".toList :: pieces)) ("...".toList ++ layout ++ w) := by
  rw [show "...".toList = ['.', '.', '.'] from rfl]
  simp only [joinCode]
  split
  · rename_i u more hjoined
    exact .bare [] u hkind hblank (hjoined ▸ h)
  · exact .bare [] [] hkind hblank (.code [] h)

/-- The pieces of a token, before others. -/
theorem joinCode_piece (hown : pieceOf t = some own)
    (hlexeme : ∀ remark, t.kind = .continuation remark → t.lexeme = "...".toList ++ remark)
    (h : Restores ts (joinCode pieces) w) :
    Restores (t :: ts) (joinCode (own ++ pieces)) (t.lexeme ++ w) := by
  unfold pieceOf at hown
  split at hown
  · cases hown
    exact .comment ‹_› h
  · cases hown
    exact .blockComment ‹_› h
  · cases hown
    exact .literal ‹_› h
  · rename_i remark hkind
    rw [hlexeme remark hkind]
    split_ifs at hown with hblank
    · cases hown
      exact joinCode_bare hkind hblank h
    · cases hown
      exact .remark [] hkind (by simpa using hblank) h
  · cases hown

end Restores

/-! ## Cutting and putting together -/

theorem pieceOf_isSome (t : Token) : (pieceOf t).isSome = t.kind.isCutOut := by
  rw [pieceOf]
  generalize t.kind = k
  cases k <;> rfl

/-- The points of a continuation are the only code that a token gives. -/
theorem eq_points_of_pieceOf {t : Token} {v : Text} (h : pieceOf t = some own) (hv : .code v ∈ own) :
    v = "...".toList := by
  unfold pieceOf at h
  split at h
  · cases h
    simp at hv
  · cases h
    simp at hv
  · cases h
    simp at hv
  · cases h
    rcases mem_cons.1 hv with hv | hv
    · exact BodyPiece.code.inj hv
    · split_ifs at hv <;> simp at hv
  · cases h

/-- The pieces of a text restore it, if its tokens are written in it. -/
theorem restores_of_cut {stop start : Nat}
    (hlexemes : ∀ t ∈ ts, text.slice? t.offset t.endOffset = some t.lexeme)
    (hcontinuations : ∀ t ∈ ts, ∀ remark, t.kind = .continuation remark → t.lexeme = "...".toList ++ remark)
    (h : cut text stop start ts = some pieces) :
    ∃ w, text.slice? start stop = some w ∧ Restores (ts.filter (·.kind.isCutOut)) (joinCode pieces) w := by
  induction ts generalizing start pieces with
  | nil =>
    obtain ⟨w, hw, hpieces⟩ := Option.bind_eq_some_iff.1 h
    cases hpieces
    have hcode : Restores [] (joinCode [.code w]) (w ++ []) := .joinCode_code w .nil
    rw [append_nil] at hcode
    exact ⟨w, hw, hcode⟩
  | cons t ts ih =>
    obtain ⟨hlexeme, hlexemes⟩ := forall_mem_cons.1 hlexemes
    obtain ⟨hcontinuation, hcontinuations⟩ := forall_mem_cons.1 hcontinuations
    cases hpiece : pieceOf t with
    | none =>
      have hcode : t.kind.isCutOut = false := by rw [← pieceOf_isSome, hpiece]; rfl
      simp only [cut, hpiece] at h
      rw [filter_cons_of_neg (by simp [hcode])]
      exact ih hlexemes hcontinuations h
    | some own =>
      have hcutOut : t.kind.isCutOut := by rw [← pieceOf_isSome, hpiece]; rfl
      obtain ⟨code, hcode, more, hmore, rfl⟩ : ∃ code, text.slice? start t.offset = some code ∧
          ∃ more, cut text stop t.endOffset ts = some more ∧ .code code :: (own ++ more) = pieces := by
        simpa [cut, hpiece, Option.bind_eq_some_iff] using h
      obtain ⟨w, hw, hrestores⟩ := ih hlexemes hcontinuations hmore
      refine ⟨code ++ (t.lexeme ++ w), Text.slice?_append hcode (Text.slice?_append hlexeme hw), ?_⟩
      rw [filter_cons_of_pos (by simpa using hcutOut)]
      exact (hrestores.joinCode_piece hpiece hcontinuation).joinCode_code code

/-! ## Joined code -/

/-- What holds of each code, and of two that are joined, holds of the joined code, which is never empty. -/
theorem forall_code_joinCode {P : Text → Prop} (happend : ∀ t u, P t → P u → P (t ++ u))
    (h : ∀ t, .code t ∈ pieces → P t) :
    ∀ t, .code t ∈ joinCode pieces → t ≠ [] ∧ P t := by
  fun_induction joinCode pieces with
  | case1 => exact fun _ ht => absurd ht not_mem_nil
  | case2 rest ih => exact ih fun t ht => h t (mem_cons_of_mem _ ht)
  | case3 t rest hne u more hrest ih =>
    have hmore := ih fun t ht => h t (mem_cons_of_mem _ ht)
    rw [hrest] at hmore
    intro v hv
    rcases mem_cons.1 hv with hv | hv
    · cases hv
      exact ⟨append_ne_nil_of_left_ne_nil hne u, happend t u (h t mem_cons_self) (hmore u mem_cons_self).2⟩
    · exact hmore v (mem_cons_of_mem _ hv)
  | case4 t rest hne _ ih =>
    intro v hv
    rcases mem_cons.1 hv with hv | hv
    · cases hv
      exact ⟨hne, h t mem_cons_self⟩
    · exact ih (fun t ht => h t (mem_cons_of_mem _ ht)) v hv
  | case5 p rest _ hcode ih =>
    intro v hv
    rcases mem_cons.1 hv with hv | hv
    · exact absurd hv.symm (hcode v)
    · exact ih (fun t ht => h t (mem_cons_of_mem _ ht)) v hv

end Body

namespace Balance

/-- The scanner leaves no double quote in code. -/
theorem Cuts.quote_notMem {pending : Text}
    (h : Cuts s past pending ahead ts s' pieces) (hpending : '"' ∉ pending) :
    ∀ t, .code t ∈ pieces → '"' ∉ t := by
  induction h with
  | stop htook _ =>
    intro t ht
    cases mem_singleton.1 ht
    exact fun hc => (mem_append.1 hc).elim hpending (plain_gap htook).quote_notMem
  | code htook hcode _ ih =>
    refine ih ?_
    simp only [mem_append, not_or]
    exact ⟨⟨hpending, (plain_gap htook).quote_notMem⟩, (filter_lexeme htook.reads hcode).1⟩
  | @piece _ _ _ _ _ _ _ t _ own _ _ _ htook hpiece _ ih =>
    intro v hv
    rcases mem_append.1 hv with hv | hv
    · rcases mem_cons.1 hv with hv | hv
      · cases hv
        exact fun hc => (mem_append.1 hc).elim hpending (plain_gap htook).quote_notMem
      · rw [Body.eq_points_of_pieceOf hpiece hv]
        decide
    · exact ih (plain_hidden htook).quote_notMem v hv

end Balance

/-! ## The body of a method -/

/-- A continuation is written as its points and its remark. -/
theorem Scanner.continuation_of_chain (h : Chain Scanner.step s ts s')
    (hs : s.cursor = .between past ahead) : ∀ t ∈ ts, ∀ remark, t.kind = .continuation remark →
    t.lexeme = "...".toList ++ remark := by
  induction h generalizing past ahead with
  | nil => exact forall_mem_nil _
  | cons hstep _ ih =>
    obtain ⟨gap, lexeme, hidden, rest, rfl, htook⟩ := Scanner.took_of_step hs hstep
    refine forall_mem_cons.2 ⟨fun remark hkind => ?_, ih htook.cursor_eq⟩
    have hreads := htook.reads
    rw [hkind] at hreads
    rw [htook.stands.2]
    cases hreads with
    | continuation => rfl

theorem literals_cutOut (ts : List Token) :
    (ts.filter (·.kind.isCutOut)).filterMap (·.kind.literal?) = ts.filterMap (·.kind.literal?) := by
  rw [filterMap_filter]
  refine filterMap_congr fun t _ => ?_
  generalize t.kind = k
  cases k <;> rfl

theorem slice?_of_scan {tokens : List Token} (h : scan text = .ok tokens) : ∀ t ∈ tokens,
    text.slice? t.offset t.endOffset = some t.lexeme := by
  intro t ht
  obtain ⟨before, after, htext, hstands, -⟩ := (laid_of_scan h).exists_cut rfl t ht
  exact Text.slice?_of_eq htext hstands.offset hstands.endOffset

namespace Read

variable {limits : Limits} {text : Text} {tokens inner rest : List Token}
  {m : Member} {b : Body} {last close : Token} {pieces : List BodyPiece}

/-- The token before a body ends its signature, and the body starts right behind it. -/
theorem BodyRun.exists_before (h : BodyRun limits text tokens m b last inner close rest pieces)
    (hscan : scan text = .ok tokens) :
    ∃ past t, tokens = past ++ t :: inner ++ close :: rest ∧
      endsHeader t.kind ∧ t.endOffset = last.endOffset := by
  obtain ⟨q, x, q', hq, hsignature, hahead⟩ := h.signature
  obtain ⟨past, t, htokens, hkind⟩ :=
    signature_behind (fun _ ht => Shift.eof_of_suffix hscan ht) hq hsignature
  obtain ⟨past', s, hpast', -, hoffset, hyields⟩ := h.place
  have hcont : t.kind.isContinuation = false := by
    generalize t.kind = k at hkind
    cases k <;> first | rfl | cases hkind
  obtain rfl : past' = past ++ [t] := by
    have := Except.ok.inj ((scan_of_yields hpast' hyields).symm.trans hscan)
    rw [htokens, hahead, append_cons past] at this
    exact append_cancel_right this
  obtain ⟨s₀, hpast, hlast⟩ := hpast'.of_append
  cases hlast with
  | cons hstep hnil =>
    cases hnil
    refine ⟨past, t, by rw [htokens, hahead]; simp, hkind, ?_⟩
    rw [← hoffset, Scanner.offset_of_step ((Scanner.over_start text).of_chain hpast) hstep hcont]

end Read

/-- The body `b` of the function at `position`: behind the documentation `doc`
stand the tokens `ts`, and the pieces of the body restore their text `w`. -/
structure Body.Restored (limits : Limits) (text : Text) (position : Position) (b : Body) (doc ts : List Token)
    (w : Text) : Prop where
  /-- The tokens stand between the header of the function and the word that closes it. -/
  stands : ∃ tokens past last close rest, scan text = .ok tokens ∧
    bodyTokens? limits tokens position = some (doc ++ ts, close) ∧
    tokens = past ++ last :: (doc ++ ts) ++ close :: rest ∧ Read.endsHeader last.kind = true ∧
    text.slice? (doc.getLast?.getD last).endOffset close.offset = some w
  doc_eq : doc = (doc ++ ts).take (Body.docLength none (doc ++ ts))
  docOf : b.doc = Body.docOf doc
  restores : Body.Restores (ts.filter (·.kind.isCutOut)) b.pieces w
  literals : b.pieces.filterMap (·.literal?) = ts.filterMap (·.kind.literal?)
  code : ∀ t, .code t ∈ b.pieces → t ≠ [] ∧ '"' ∉ t
  joined : b.pieces.IsChain fun p q => (p.isCode && q.isCode) = false

/-- The pieces of a body restore the text from the end of its documentation, or
else of its signature, to the `end` that closes it. Each literal gives one piece.
Code is not empty, holds no double quote and does not stand next to other code. -/
theorem ClassDecl.body_restored {limits : Limits} {text : Text} {c : ClassDecl} {m : Member} {b : Body}
    (h : ClassDecl.parse limits text = .ok c) (hm : m ∈ c.members) (hb : m.body? = some b) :
    ∃ doc ts w, b.Restored limits text m.position doc ts w := by
  obtain ⟨tokens, last', inner, close, rest, pieces, hscan, hbody⟩ := ClassDecl.exists_body_of_parse h hm hb
  obtain ⟨past, last, htokens, hkind, hoffset⟩ := hbody.exists_before hscan
  obtain ⟨s₁, s₂, s₃, hcut⟩ := hbody.exists_cut
  have hinner := List.take_append_drop (Body.docLength none inner) inner
  have hsubset : ∀ t ∈ inner.drop (Body.docLength none inner), t ∈ tokens := by
    intro t ht
    simp [htokens, List.mem_of_mem_drop ht]
  obtain ⟨past₁, ahead, hcursor, -⟩ := hcut.inText
  obtain ⟨w, hw, hrestores⟩ := Body.restores_of_cut (fun t ht => slice?_of_scan hscan t (hsubset t ht))
    (Scanner.continuation_of_chain hcut.chain hcursor) hbody.cut
  rw [← hbody.pieces] at hrestores
  have hstart : ((inner.take (Body.docLength none inner)).getLast?.getD last).endOffset =
      Body.start inner (some last') close := by
    unfold Body.start
    cases (inner.take (Body.docLength none inner)).getLast? with
    | none => exact hoffset
    | some t => rfl
  refine ⟨inner.take (Body.docLength none inner), inner.drop (Body.docLength none inner), w,
    ⟨tokens, past, last, close, rest, hscan, ?_, ?_,
    hkind, by rw [hstart, hw]⟩, by rw [hinner], hbody.doc, hrestores, by rw [hrestores.literals,
    literals_cutOut], ?_, by rw [hbody.pieces]; exact Body.isChain_joinCode _⟩
  · rw [hinner, hbody.found]
  · rw [hinner, htokens]
  obtain ⟨past₂, ahead₂, pieces₂, hcuts, hpieces⟩ := Balance.exists_cuts hcut
  rw [hpieces]
  refine Body.forall_code_joinCode (fun t u ht hu => ?_) (hcuts.quote_notMem List.not_mem_nil)
  simp only [List.mem_append, not_or]
  exact ⟨ht, hu⟩

/-- A body behind its documentation: literals in both quotes, a transpose,
continuations with and without a remark, and comments. -/
def mixedBody : Text :=
  "classdef A\nmethods\nfunction f(a)\n% doc\nx = [\"b\"\"\", a'] ... \n  + 'it''s' ... why\n; % c\n%\x7b\nd\n%\x7d\nend\nend\nend\n"

def mixedPieces : List BodyPiece :=
  [.code "\nx = [", .literal "b\"", .code ", a'] ...\n  + ", .literal "it's", .code " ...", .comment [" why"],
    .code "\n; ", .comment [" c"], .code "\n", .comment ["d"], .code "\n"]

theorem ClassDecl.body_restored_mixed :
    ∃ c m b doc ts w, ClassDecl.parse {} mixedBody = .ok c ∧ m ∈ c.members ∧
    m.body? = some b ∧ b.pieces = mixedPieces ∧ b.Restored {} mixedBody m.position doc ts w := by
  obtain ⟨c, hc, m, hm, b, hb, hpieces⟩ : ∃ c, parse {} mixedBody = .ok c ∧ ∃ m ∈ c.members, ∃ b,
      m.body? = some b ∧ b.pieces = mixedPieces := by decide +kernel
  obtain ⟨doc, ts, w, hrestored⟩ := body_restored hc hm hb
  exact ⟨c, m, b, doc, ts, w, hc, hm, hb, hpieces, hrestored⟩

end ClassdefDoc
