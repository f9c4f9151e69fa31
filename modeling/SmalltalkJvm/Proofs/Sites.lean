import Mathlib.Data.List.Perm.Basic
import SmalltalkJvm.Proofs.Outline

/-! # Where blocks are created

Each block is created in one method: that of the script, or that of the block around it. There its
answers are caught by the innermost construct around it that catches answers at all: a keyword
message together with its receiver, a keyword message of a cascade, or else the whole statement.

Taken over all methods, the blocks that are created are those of the script, each of them once.
-/

namespace SmalltalkJvm

open Compile

/-- A construct that catches the answers of the blocks created in it, with the number of blocks
before it. -/
inductive Catcher where
  /-- A keyword message with its receiver. -/
  | send (before : Nat) (target : Expr) (parts : List KeywordPart) (span : Span)
  /-- A keyword message of a cascade to a receiver. -/
  | cascaded (before : Nat) (target : Expr) (parts : List KeywordPart) (span : Span)
  /-- A statement that is an expression. -/
  | expression (before : Nat) (value : Expr)
  /-- A statement that is an answer. -/
  | answer (before : Nat) (value : Expr) (span : Span)
  deriving Inhabited

structure Site where
  /-- The place of the block in the order of completion. -/
  number : Nat
  literal : BlockLiteral
  catcher : Catcher
  deriving Inhabited

variable (env : Env)

mutual

/-- The blocks that an expression creates, if its answers are caught by the construct given and some
blocks come before it. -/
def Expr.sites (c : Catcher) (k : Nat) : Expr → List Site
  | .literal .. | .pseudo .. | .reference .. | .primitive .. => []
  | .block parameters body span =>
    [⟨k + (body.blocks env).length, ⟨.value, parameters, body, span⟩, c⟩]
  | .send target m _ =>
    let c := match m with
      | .keyword parts span => .send k target parts span
      | _ => c
    target.sites c k ++ m.sites c (k + (target.blocks env).length)
  | .cascade target messages _ =>
    target.sites c k ++ messageSites target c (k + (target.blocks env).length) messages
  | .assign _ value _ => value.sites c k
  | .paren inner _ => inner.sites c k

def Message.sites (c : Catcher) (k : Nat) : Message → List Site
  | .unary _ => []
  | .binary _ argument _ => argument.sites c k
  | .keyword parts _ => argumentSites c k parts

def messageSites (target : Expr) (c : Catcher) (k : Nat) : List Message → List Site
  | [] => []
  | m :: rest =>
    let inner := match m with
      | .keyword parts span => .cascaded k target parts span
      | _ => c
    m.sites inner k ++ messageSites target c (k + (m.blocks env).length) rest

def argumentSites (c : Catcher) (k : Nat) : List KeywordPart → List Site
  | [] => []
  | ⟨keyword, argument⟩ :: rest =>
    match argument with
    | .block parameters body span =>
      ⟨k + (body.blocks env).length, ⟨roleOf env keyword.name, parameters, body, span⟩, c⟩ ::
        argumentSites c (k + ((body.blocks env).length + 1)) rest
    | other => other.sites c k ++ argumentSites c (k + (other.blocks env).length) rest

end

def Statement.sites (k : Nat) : Statement → List Site
  | .expression value => value.sites env (.expression k value) k
  | .answer value span => value.sites env (.answer k value span) k

def statementSites (k : Nat) : List Statement → List Site
  | [] => []
  | s :: rest => s.sites env k ++ statementSites (k + (s.blocks env).length) rest

def Sequence.sites (k : Nat) (s : Sequence) : List Site := statementSites env k s.statements

def Site.entry (s : Site) : BlockLiteral × Nat := (s.literal, s.number)

/-- The blocks that the methods of some blocks create, which are numbered from `k` on. -/
def innerEntries (k : Nat) (literals : List BlockLiteral) : List (BlockLiteral × Nat) :=
  (literals.zipIdx k).flatMap fun (literal, i) =>
    (literal.body.sites env (i - (literal.body.blocks env).length)).map Site.entry

theorem innerEntries_append (k : Nat) (first second : List BlockLiteral) :
    innerEntries env k (first ++ second) =
      innerEntries env k first ++ innerEntries env (k + first.length) second := by
  simp [innerEntries, List.zipIdx_append]

theorem perm_append_exchange {α : Type} (a b c d : List α) :
    ((a ++ b) ++ (c ++ d)).Perm ((a ++ c) ++ (b ++ d)) := by
  simp only [List.append_assoc]
  refine List.Perm.append_left a ?_
  rw [← List.append_assoc, ← List.append_assoc]
  exact List.Perm.append_right d List.perm_append_comm

/-- The blocks of a construct are created by it or in the methods of other such blocks. -/
def Covers (k : Nat) (sites : List Site) (literals : List BlockLiteral) : Prop :=
  (sites.map Site.entry ++ innerEntries env k literals).Perm (literals.zipIdx k)

theorem Covers.append {k : Nat} {s₁ s₂ : List Site} {l₁ l₂ : List BlockLiteral}
    (h₁ : Covers env k s₁ l₁) (h₂ : Covers env (k + l₁.length) s₂ l₂) :
    Covers env k (s₁ ++ s₂) (l₁ ++ l₂) := by
  unfold Covers at h₁ h₂ ⊢
  rw [List.map_append, innerEntries_append, List.zipIdx_append]
  exact (perm_append_exchange ..).trans (h₁.append h₂)

theorem Covers.nil (k : Nat) : Covers env k [] [] := List.Perm.refl _

/-- A block after those that its own method creates. -/
theorem Covers.block {k : Nat} (literal : BlockLiteral) {c : Catcher}
    (h : Covers env k (literal.body.sites env k) (literal.body.blocks env)) :
    Covers env k [⟨k + (literal.body.blocks env).length, literal, c⟩]
      (literal.body.blocks env ++ [literal]) := by
  unfold Covers at h ⊢
  rw [innerEntries_append, List.zipIdx_append]
  have hinner : innerEntries env (k + (literal.body.blocks env).length) [literal] =
      (literal.body.sites env k).map Site.entry := by
    simp [innerEntries]
  rw [hinner]
  refine List.Perm.trans (List.perm_append_comm : List.Perm ([_] ++ _) _)
    (List.Perm.append_right _ ?_)
  exact List.perm_append_comm.trans h

mutual

theorem Expr.covers (e : Expr) (c : Catcher) (k : Nat) :
    Covers env k (e.sites env c k) (e.blocks env) := by
  cases e with
  | literal | pseudo | reference | primitive => exact .nil env k
  | block parameters body span =>
    exact Covers.block env ⟨.value, parameters, body, span⟩ (body.covers k)
  | send target m span => exact (target.covers _ k).append env (m.covers _ _)
  | cascade target messages span =>
    exact (target.covers c k).append env (covers_messageSites target messages c _)
  | assign target value span => exact value.covers c k
  | paren inner span => exact inner.covers c k

theorem Message.covers (m : Message) (c : Catcher) (k : Nat) :
    Covers env k (m.sites env c k) (m.blocks env) := by
  cases m with
  | unary selector => exact .nil env k
  | binary selector argument span => exact argument.covers c k
  | keyword parts span => exact covers_argumentSites parts c k

theorem covers_messageSites (target : Expr) (messages : List Message) (c : Catcher) (k : Nat) :
    Covers env k (messageSites env target c k messages) (messageBlocks env messages) := by
  cases messages with
  | nil => exact .nil env k
  | cons m rest => exact (m.covers _ k).append env (covers_messageSites target rest c _)

theorem covers_argumentSites (parts : List KeywordPart) (c : Catcher) (k : Nat) :
    Covers env k (argumentSites env c k parts) (argumentBlocks env parts) := by
  cases parts with
  | nil => exact .nil env k
  | cons part rest =>
    obtain ⟨keyword, argument⟩ := part
    have hargument := argument.covers c k
    cases argument with
    | block parameters body span =>
      have hblock := Covers.block env ⟨roleOf env keyword.name, parameters, body, span⟩ (c := c)
        (body.covers k)
      refine hblock.append env ?_
      rw [List.length_append]
      exact covers_argumentSites rest c _
    | _ => exact hargument.append env (covers_argumentSites rest c _)

theorem Sequence.covers (s : Sequence) (k : Nat) :
    Covers env k (s.sites env k) (s.blocks env) := by
  obtain ⟨temporaries, ss, span⟩ := s
  exact covers_statementSites ss k

theorem covers_statementSites (ss : List Statement) (k : Nat) :
    Covers env k (statementSites env k ss) (statementBlocks env ss) := by
  cases ss with
  | nil => exact .nil env k
  | cons s rest => exact (s.covers k).append env (covers_statementSites rest _)

theorem Statement.covers (s : Statement) (k : Nat) :
    Covers env k (s.sites env k) (s.blocks env) := by
  cases s with
  | expression value => exact value.covers _ k
  | answer value span => exact value.covers _ k

end

end SmalltalkJvm
