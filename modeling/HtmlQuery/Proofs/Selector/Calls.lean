import HtmlQuery.Proofs.Selector.Answers
import HtmlQuery.Proofs.Selector.Nested
import Mathlib.Data.List.Forall2

/-!
# Calls on a cache of selectors

A cache of selectors is asked for the list of a text and for matches, may be asked what it holds, and may be
emptied. Whatever was asked before, and however few entries it holds, it answers as if it held nothing
(`Call.answers_runAll`). Each call keeps the cache sound and answers so (`ensures_run`), and so does a run of
calls (`ensures_runAll`).
-/

namespace HtmlQuery

/-- What is asked of a cache of selectors. -/
inductive Call where
  /-- The selector list of a text. -/
  | resolve (s : String)
  /-- Whether a node of a tree matches a text. -/
  | test (t : Tree) (n : NodeId) (s : String)
  /-- Whether the cache holds a text. -/
  | holds (s : String)
  /-- That the cache be emptied. -/
  | clear

namespace Call

/-- What a call is answered with. -/
inductive Answer where
  | list (l : SelectorList)
  | truth (b : Bool)
  | done
  deriving DecidableEq

/-- Makes a call in a session. -/
def run : Call → SessionM Answer
  | resolve s => do
    let resolved ← Session.resolve s
    pure (.list resolved.list)
  | test t n s => do
    let answer ← Session.matchesText t n s
    pure (.truth answer)
  | holds s => fun session => (.truth (session.cache.contains s), session)
  | clear => do
    Session.clearCache
    pure .done

/-- Makes calls one after the other. -/
def runAll : List Call → SessionM (List Answer)
  | [] => pure []
  | call :: calls => do
    let answer ← call.run
    let answers ← runAll calls
    pure (answer :: answers)

/-- The answer to a call is the one that is found without a cache. What a cache holds is not asked without one. -/
def AnsweredBy : Call → Answer → Prop
  | resolve s, answer => answer = .list (SelectorList.parse s)
  | test t n s, answer => answer = .truth (t.matchesText s n)
  | holds _, _ => True
  | clear, _ => True

open Session

/-- A call is answered as without a cache, and leaves the session sound. -/
theorem ensures_run (call : Call) : Ensures call.run call.AnsweredBy := by
  cases call with
  | resolve s =>
    refine (ensures_resolve s).bind fun resolved hlist => .pure ?_
    rw [AnsweredBy, hlist]
  | test t n s =>
    refine (ensures_matchesText t n s).bind fun answer hanswer => .pure ?_
    rw [AnsweredBy, hanswer]
  | holds s => exact fun _ hsound => ⟨trivial, hsound⟩
  | clear => exact fun _ hsound => ⟨trivial, SelectorCache.Sound.clear hsound⟩

theorem ensures_runAll (calls : List Call) :
    Ensures (runAll calls) fun answers => List.Forall₂ AnsweredBy calls answers := by
  induction calls with
  | nil => exact .pure .nil
  | cons call calls ih =>
    exact (ensures_run call).bind fun _ hanswer => ih.bind fun _ hanswers => .pure (.cons hanswer hanswers)

/-- Whatever its capacity and whatever was asked, a cache holds what the texts read as. -/
theorem sound_runAll (capacity : Nat) (warnings : Warnings) (calls : List Call) :
    ((runAll calls).run ⟨.ofCapacity capacity, warnings⟩).2.Sound :=
  (ensures_runAll calls ⟨_, warnings⟩ (SelectorCache.sound_ofCapacity capacity)).2

/-- **A cache does not show in the answers.** Whatever its capacity and whatever was asked before, a text has the
list that reading it gives, and a node matches a text exactly when it does with every text read afresh: the answers
to matches are those of the one function that reads each text, those inside others included. -/
theorem answers_runAll (capacity : Nat) (warnings : Warnings) (calls : List Call) :
    List.Forall₂ AnsweredBy calls ((runAll calls).run ⟨.ofCapacity capacity, warnings⟩).1 ∧
    ∀ (t : Tree) (answer : String → NodeId → Bool), t.AnswersAfresh answer ↔ answer = t.matchesText :=
  ⟨(ensures_runAll calls ⟨_, warnings⟩ (SelectorCache.sound_ofCapacity capacity)).1, fun _ _ => Tree.answersAfresh_iff⟩

end Call

end HtmlQuery
