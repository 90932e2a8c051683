import ClassdefDoc.Proofs.Balance.Roles
import ClassdefDoc.Proofs.Scan.Lexeme
import ClassdefDoc.Pseudocode.Page

/-!
# Reading pseudo-code character by character

A text is `Neutral` if the reader of brackets comes back from it to code with the
same brackets open. Plain text, quoted text (`neutral_quote`) and comments
(`neutral_comment`) are neutral, and so are texts put together from neutral ones.
-/

namespace ClassdefDoc.Balance

open List Text

variable {a b t : Text} {α : Type} {parts : List Text} {c : Char}

@[simp] theorem read_nil (s : State) : read s [] = some s := rfl

@[simp] theorem read_cons (s : State) (c : Char) (t : Text) :
    read s (c :: t) = (step s c).bind (read · t) := rfl

theorem read_append (s : State) (a b : Text) : read s (a ++ b) = (read s a).bind (read · b) :=
  foldlM_append

theorem read_append_of {s s' : State} (h : read s a = some s') (b : Text) :
    read s (a ++ b) = read s' b := by
  rw [read_append, h, Option.bind_some]

/-- The reader comes back to code with the same brackets open. -/
def Neutral (t : Text) : Prop := ∀ stack, read ⟨.code, stack⟩ t = some ⟨.code, stack⟩

namespace Neutral

theorem nil : Neutral [] := fun _ => rfl

theorem append (ha : Neutral a) (hb : Neutral b) : Neutral (a ++ b) := fun stack => by
  rw [read_append_of (ha stack), hb stack]

theorem flatMap {f : α → Text} {l : List α} (h : ∀ a ∈ l, Neutral (f a)) :
    Neutral (l.flatMap f) := by
  induction l with
  | nil => exact nil
  | cons a l ih =>
    rw [flatMap_cons]
    exact (h a mem_cons_self).append (ih fun b hb => h b (mem_cons_of_mem _ hb))

/-- The parts of a joined text one by one. -/
theorem cons (ha : Neutral a) (hparts : Neutral (join parts)) :
    Neutral (join (a :: parts)) := ha.append hparts

end Neutral

/-! ## Plain text -/

/-- A character that the reader passes over in code. -/
structure IsPlain (c : Char) : Prop where
  opener : Bracket.ofOpener? c = none
  closer : Bracket.ofCloser? c = none
  quote : c ≠ '"'
  slash : c ≠ '/'

instance (c : Char) : Decidable (IsPlain c) :=
  decidable_of_iff (Bracket.ofOpener? c = none ∧ Bracket.ofCloser? c = none ∧ c ≠ '"' ∧ c ≠ '/')
    ⟨fun h => ⟨h.1, h.2.1, h.2.2.1, h.2.2.2⟩, fun h => ⟨h.opener, h.closer, h.quote, h.slash⟩⟩

theorem IsPlain.step (h : IsPlain c) (stack : List Bracket) :
    step ⟨.code, stack⟩ c = some ⟨.code, stack⟩ := by
  simp [Balance.step, code, h.opener, h.closer, h.slash, h.quote]

/-- Text that holds plain characters only. -/
def Plain (t : Text) : Prop := ∀ c ∈ t, IsPlain c

instance (t : Text) : Decidable (Plain t) := List.decidableBAll IsPlain t

theorem Plain.append (ha : Plain a) (hb : Plain b) : Plain (a ++ b) := fun c hc =>
  (mem_append.1 hc).elim (ha c) (hb c)

theorem Plain.neutral (h : Plain t) : Neutral t := by
  intro stack
  induction t with
  | nil => rfl
  | cons c t ih =>
    rw [read_cons, (h c mem_cons_self).step, Option.bind_some]
    exact ih fun d hd => h d (mem_cons_of_mem _ hd)

theorem Plain.flatMap {f : α → Text} {l : List α} (h : ∀ a ∈ l, Plain (f a)) :
    Plain (l.flatMap f) := by
  intro c hc
  obtain ⟨a, ha, hc⟩ := mem_flatMap.1 hc
  exact h a ha c hc

theorem Plain.nil : Plain [] := forall_mem_nil _

theorem Plain.cons (ha : Plain a) (hparts : Plain (join parts)) :
    Plain (join (a :: parts)) := ha.append hparts

theorem Plain.joinWith {sep : Text} (hsep : Plain sep) (h : ∀ p ∈ parts, Plain p) :
    Plain (Text.joinWith sep parts) := by
  intro c hc
  rcases mem_joinWith hc with hc | ⟨p, hp, hc⟩
  · exact hsep c hc
  · exact h p hp c hc

theorem isPlain_of_isContinue (h : Name.isContinue c) : IsPlain c :=
  have hinner := Name.isInner_of_isContinue h
  ⟨hinner.opener, hinner.closer, hinner.quote, by rintro rfl; revert h; decide⟩

theorem plain_of_isIdentifier {w : Text} (h : Name.isIdentifier w) : Plain w := fun c hc =>
  isPlain_of_isContinue (Name.isContinue_of_isIdentifier h c hc)

theorem neutral_line (h : Neutral t) : Neutral (Page.line t) :=
  h.append (Plain.neutral (by decide))

/-! ## Quoted text -/

/-- Quoted text ends at its last quote, also behind a slash. -/
theorem read_quote {m : Mode} (hm : m = .code ∨ m = .slash) (t : Text) (stack : List Bracket) :
    read ⟨m, stack⟩ (Quoted.quote t) = some ⟨.code, stack⟩ := by
  have hopen : step ⟨m, stack⟩ '"' = some ⟨.quoted, stack⟩ := by rcases hm with rfl | rfl <;> rfl
  show read ⟨m, stack⟩ ('"' :: (Quoted.escape t ++ (['"'] ++ []))) = _
  rw [read_cons, hopen, Option.bind_some,
    read_append_of ((staysIn_quoted_escape t).quoted.read (by decide) stack)]
  rfl

theorem neutral_quote (t : Text) : Neutral (Quoted.quote t) := fun stack => read_quote (.inl rfl) t stack

/-! ## Comments -/

theorem neutral_comment (lines : List Text) : Neutral (Comment.ofLines lines) :=
  (isComment_ofLines lines).takenFor.read (by decide)

end ClassdefDoc.Balance
