import GrammarText.Proofs.Parsing.Chosen
import GrammarText.Tree.Tally

/-!
# Trees are visited in postorder

The elements of a tree in postorder, each with the count of those right below it, are all that a
visitor needs: if it is called for one after another, the values that an element takes are the last
ones made and not taken before.  In any monad this has the same effects as visiting the tree
(`Visitor.perform_elements`).  For visitors with a state that may fail, the calls are written down
(`Visitor.walk`), and they are those for the elements in turn, up to the first that fails
(`Tree.visit_postorder`).
-/

namespace GrammarText

/-- What a visitor is called for, with the values that the items or children there have become. -/
inductive Visitor.Call (α : Type) where
  | token (token : Token)
  | absent
  | repeated (items : List α)
  | node (node : Node) (children : List α)

namespace Tree

/-- An element of a tree, with the count of its items or children. -/
inductive Element where
  | token (token : Token)
  | absent
  | repeated (count : Nat)
  | node (node : Node) (count : Nat)
  deriving DecidableEq, Repr

mutual

/-- The elements of a tree in postorder. -/
def elements : Tree → List Element
  | token t => [.token t]
  | absent => [.absent]
  | repeated items => elementsOfAll items ++ [.repeated items.length]
  | node n children => elementsOfAll children ++ [.node n children.length]

def elementsOfAll : List Tree → List Element
  | [] => []
  | t :: ts => t.elements ++ elementsOfAll ts

end

namespace Element

variable {α : Type}

def arity : Element → Nat
  | token _ => 0
  | absent => 0
  | repeated n => n
  | node _ n => n

/-- The call for an element, which takes its values from the end of those that are there. -/
def call (made : List α) : Element → Visitor.Call α
  | token t => .token t
  | absent => .absent
  | repeated n => .repeated (made.drop (made.length - n))
  | node i n => .node i (made.drop (made.length - n))

def left (made : List α) (e : Element) : List α := made.take (made.length - e.arity)

def token? : Element → Option Token
  | token t => some t
  | _ => none

/-- Each of some elements finds as many values as it takes, where some are there before them. -/
def Fed : Nat → List Element → Prop
  | _, [] => True
  | k, e :: es => e.arity ≤ k ∧ Fed (k - e.arity + 1) es

end Element
end Tree

namespace Visitor

open GrammarText.Tree (Element visit visitAll elements elementsOfAll)
open GrammarText.Tree.Element (Fed)

section Perform

variable {m : Type → Type} {α : Type}

def Call.element : Call α → Element
  | token t => .token t
  | absent => .absent
  | repeated items => .repeated items.length
  | node n children => .node n children.length

def Call.token? : Call α → Option Token
  | token t => some t
  | _ => none

def answer (v : Visitor m α) : Call α → m α
  | .token t => v.token t
  | .absent => v.absent
  | .repeated items => v.repeated items
  | .node n children => v.node n children

/-- Calls a visitor for elements in turn, each of which takes its values from those made before. -/
def perform [Monad m] (v : Visitor m α) : List Element → List α → m (List α)
  | [], made => pure made
  | e :: es, made => do
    let a ← v.answer (e.call made)
    v.perform es (e.left made ++ [a])

/-! ## Visiting a tree is calling for its elements in turn -/

variable [Monad m] [LawfulMonad m]

/-- Of some trees there are as many values as there are trees. -/
theorem visitAll_bind_congr {β : Type} (v : Visitor m α) {ts : List Tree} {f g : List α → m β}
    (h : ∀ as, as.length = ts.length → f as = g as) :
    visitAll v ts >>= f = visitAll v ts >>= g := by
  induction ts generalizing f g with
  | nil => simpa [visitAll] using h [] rfl
  | cons t ts ih =>
    simp only [visitAll, bind_assoc, pure_bind]
    refine bind_congr fun a => ih fun as has => h (a :: as) ?_
    rw [List.length_cons, List.length_cons, has]

mutual

/-- Calls for the elements of a tree make one value, that of the tree. -/
theorem perform_elements (v : Visitor m α) (t : Tree) (rest : List Element) (made : List α) :
    v.perform (t.elements ++ rest) made = visit v t >>= fun a => v.perform rest (made ++ [a]) := by
  cases t with
  | token t => simp [elements, perform, Element.call, Element.left, Element.arity, visit, answer]
  | absent => simp [elements, perform, Element.call, Element.left, Element.arity, visit, answer]
  | repeated items =>
    rw [elements, List.append_assoc, perform_elementsOfAll v items, visit, bind_assoc]
    refine visitAll_bind_congr v fun as has => ?_
    simp [perform, Element.call, Element.left, Element.arity, answer, ← has]
  | node n children =>
    rw [elements, List.append_assoc, perform_elementsOfAll v children, visit, bind_assoc]
    refine visitAll_bind_congr v fun as has => ?_
    simp [perform, Element.call, Element.left, Element.arity, answer, ← has]

/-- Calls for the elements of some trees make the values of the trees, in their order. -/
theorem perform_elementsOfAll (v : Visitor m α) (ts : List Tree) (rest : List Element)
    (made : List α) : v.perform (elementsOfAll ts ++ rest) made =
      visitAll v ts >>= fun as => v.perform rest (made ++ as) := by
  cases ts with
  | nil => simp [elementsOfAll, visitAll]
  | cons t ts =>
    rw [elementsOfAll, List.append_assoc, perform_elements v t, visitAll, bind_assoc]
    refine bind_congr fun a => ?_
    rw [perform_elementsOfAll v ts]
    simp

end

end Perform

/-! ## Calls that are written down -/

variable {ε σ α : Type}

def recorded (v : Visitor (ExceptT ε (StateM σ)) α) (c : Call α) :
    ExceptT ε (StateM (List (Call α) × σ)) α := fun (calls, s) =>
  let (result, s) := (v.answer c).run.run s
  (result, calls ++ [c], s)

/-- A visitor that answers as another one does, and writes down each call. -/
def recording (v : Visitor (ExceptT ε (StateM σ)) α) :
    Visitor (ExceptT ε (StateM (List (Call α) × σ))) α where
  token t := v.recorded (.token t)
  absent := v.recorded .absent
  repeated items := v.recorded (.repeated items)
  node n children := v.recorded (.node n children)

/-- What comes of calls: a value or an error, the calls made, and the state after them. -/
structure Walk (ε σ α β : Type) where
  result : Except ε β
  calls : List (Call α)
  state : σ

def Walk.map {β γ : Type} (f : β → γ) (w : Walk ε σ α β) : Walk ε σ α γ :=
  { w with result := w.result.map f }

def walk (v : Visitor (ExceptT ε (StateM σ)) α) (t : Tree) (s : σ) : Walk ε σ α α :=
  let (result, calls, s) := (visit v.recording t).run.run ([], s)
  ⟨result, calls, s⟩

/-- Calls a visitor for elements in turn, each of which takes its values from the end of those that
are there, up to the first call that fails. -/
def callInTurn (v : Visitor (ExceptT ε (StateM σ)) α) :
    List Element → List α → σ → Walk ε σ α (List α)
  | [], made, s => ⟨.ok made, [], s⟩
  | e :: es, made, s =>
    let call := e.call made
    match (v.answer call).run.run s with
    | (.ok a, s) =>
      let later := v.callInTurn es (e.left made ++ [a]) s
      { later with calls := call :: later.calls }
    | (.error x, s) => ⟨.error x, [call], s⟩

/-- A visitor that never fails, and that answers as another one does where that one does not. -/
structure Mends (w v : Visitor (ExceptT ε (StateM σ)) α) : Prop where
  agrees : ∀ c s a s', (v.answer c).run.run s = (.ok a, s') → (w.answer c).run.run s = (.ok a, s')
  total : ∀ c s, ∃ a s', (w.answer c).run.run s = (.ok a, s')

variable {v w : Visitor (ExceptT ε (StateM σ)) α} {es : List Element} {made : List α} {s : σ}

theorem answer_recording (v : Visitor (ExceptT ε (StateM σ)) α) (c : Call α) :
    v.recording.answer c = v.recorded c := by
  cases c <;> rfl

theorem run_perform_cons {τ : Type} (u : Visitor (ExceptT ε (StateM τ)) α) (e : Element)
    (es : List Element) (made : List α) (s : τ) :
    (u.perform (e :: es) made).run.run s =
      match (u.answer (e.call made)).run.run s with
      | (.ok a, s) => (u.perform es (e.left made ++ [a])).run.run s
      | (.error x, s) => (.error x, s) := by
  rw [perform, ExceptT.run_bind, StateT.run_bind]
  cases h : (u.answer (e.call made)).run.run s with
  | mk result s => cases result <;> rfl

/-- Calls in turn are what a visitor performs. -/
theorem run_perform (v : Visitor (ExceptT ε (StateM σ)) α) (es : List Element) (made : List α)
    (s : σ) : (v.perform es made).run.run s =
      ((v.callInTurn es made s).result, (v.callInTurn es made s).state) := by
  induction es generalizing made s with
  | nil => rfl
  | cons e es ih =>
    rw [run_perform_cons, callInTurn]
    cases (v.answer (e.call made)).run.run s with
    | mk result s =>
      cases result with
      | ok a => exact ih _ s
      | error x => rfl

/-- What a visitor performs is the same when its calls are written down. -/
theorem run_perform_recording (v : Visitor (ExceptT ε (StateM σ)) α) (es : List Element)
    (made : List α) (calls : List (Call α)) (s : σ) :
    (v.recording.perform es made).run.run (calls, s) =
      ((v.callInTurn es made s).result, calls ++ (v.callInTurn es made s).calls,
        (v.callInTurn es made s).state) := by
  induction es generalizing made calls s with
  | nil =>
    rw [callInTurn, List.append_nil]
    rfl
  | cons e es ih =>
    have hrecorded : (v.recorded (e.call made)).run.run (calls, s) =
        (((v.answer (e.call made)).run.run s).1, calls ++ [e.call made],
          ((v.answer (e.call made)).run.run s).2) := rfl
    rw [run_perform_cons, callInTurn, answer_recording, hrecorded]
    cases (v.answer (e.call made)).run.run s with
    | mk result s =>
      cases result with
      | ok a => simpa using ih (e.left made ++ [a]) (calls ++ [e.call made]) s
      | error x => rfl

/-- What a visitor performs for the elements of a tree makes the value of the tree. -/
theorem run_perform_elements {τ : Type} (u : Visitor (ExceptT ε (StateM τ)) α) (t : Tree) (s : τ) :
    (u.perform t.elements []).run.run s =
      (((visit u t).run.run s).1.map ([·]), ((visit u t).run.run s).2) := by
  have hperform : u.perform t.elements [] = visit u t >>= fun a => pure [a] := by
    simpa [perform] using perform_elements u t [] []
  rw [hperform, ExceptT.run_bind, StateT.run_bind]
  cases (visit u t).run.run s with
  | mk result s => cases result <;> rfl

/-- A tree is visited by calls for its elements in turn. -/
theorem callInTurn_elements (v : Visitor (ExceptT ε (StateM σ)) α) (t : Tree) (s : σ) :
    v.callInTurn t.elements [] s = (v.walk t s).map ([·]) := by
  have hrun := (run_perform_recording v t.elements [] [] s).symm.trans
    (run_perform_elements v.recording t ([], s))
  rw [List.nil_append, Prod.mk.injEq] at hrun
  obtain ⟨hresult, hrest⟩ := hrun
  obtain ⟨hcalls, hstate⟩ := Prod.mk.inj hrest
  cases hturn : v.callInTurn t.elements [] s with
  | mk result calls state =>
    rw [hturn] at hresult hcalls hstate
    rw [Walk.map, walk, Walk.mk.injEq]
    exact ⟨hresult, hcalls, hstate⟩

/-- Calls for the elements of some trees leave the values of the trees behind all others. -/
theorem callInTurn_elementsOfAll (v : Visitor (ExceptT ε (StateM σ)) α) (ts : List Tree)
    (made : List α) (s : σ) :
    (v.callInTurn (elementsOfAll ts) made s).result =
        ((visitAll v ts).run.run s).1.map (made ++ ·) ∧
      (v.callInTurn (elementsOfAll ts) made s).state = ((visitAll v ts).run.run s).2 := by
  have hperform : v.perform (elementsOfAll ts) made =
      visitAll v ts >>= fun as => pure (made ++ as) := by
    simpa [perform] using perform_elementsOfAll v ts [] made
  have hrun := run_perform v (elementsOfAll ts) made s
  rw [hperform, ExceptT.run_bind, StateT.run_bind] at hrun
  cases hvisit : (visitAll v ts).run.run s with
  | mk result s' =>
    rw [hvisit] at hrun
    cases result with
    | ok as => exact ⟨(congrArg Prod.fst hrun).symm, (congrArg Prod.snd hrun).symm⟩
    | error x => exact ⟨(congrArg Prod.fst hrun).symm, (congrArg Prod.snd hrun).symm⟩

/-- Writing calls down changes nothing else. -/
theorem run_visit (v : Visitor (ExceptT ε (StateM σ)) α) (t : Tree) (s : σ) :
    (visit v t).run.run s = ((v.walk t s).result, (v.walk t s).state) := by
  have hrun := (run_perform v t.elements [] s).symm.trans (run_perform_elements v t s)
  rw [callInTurn_elements, Prod.mk.injEq] at hrun
  obtain ⟨hresult, hstate⟩ := hrun
  refine Prod.ext ?_ hstate.symm
  change (v.walk t s).result.map _ = _ at hresult
  cases hv : (v.walk t s).result <;> cases hu : ((visit v t).run.run s).1 <;>
    simp_all [Except.map]

/-! ## Which calls are made -/

theorem element_call {e : Element} (h : e.arity ≤ made.length) : (e.call made).element = e := by
  cases e with
  | token t => rfl
  | absent => rfl
  | repeated n => simpa [Element.call, Call.element, Element.arity] using Nat.sub_sub_self h
  | node i n => simpa [Element.call, Call.element, Element.arity] using Nat.sub_sub_self h

/-- Calls are made for the elements from the first one on, for all of them unless one fails. -/
theorem element_callInTurn (h : Fed made.length es) (s : σ) :
    (v.callInTurn es made s).calls.map Call.element <+: es ∧
      ((v.callInTurn es made s).result.isOk →
        (v.callInTurn es made s).calls.map Call.element = es) := by
  induction es generalizing made s with
  | nil => simp [callInTurn]
  | cons e es ih =>
    obtain ⟨harity, hes⟩ := h
    rw [callInTurn]
    cases (v.answer (e.call made)).run.run s with
    | mk result s =>
      cases result with
      | ok a =>
        have hlength : (e.left made ++ [a]).length = made.length - e.arity + 1 := by
          simp [Element.left]
        rw [← hlength] at hes
        obtain ⟨hstart, hall⟩ := ih hes s
        simp only [List.map_cons, element_call harity]
        exact ⟨(List.prefix_cons_inj e).mpr hstart, fun hok => by rw [hall hok]⟩
      | error x => simp [element_call harity, Except.isOk, Except.toBool]

/-- The last call made is the one that fails. -/
theorem exists_of_callInTurn_error {x : ε} (h : (v.callInTurn es made s).result = .error x) :
    ∃ before c s', (v.callInTurn es made s).calls = before ++ [c] ∧
      (v.answer c).run.run s' = (.error x, (v.callInTurn es made s).state) := by
  induction es generalizing made s with
  | nil => cases h
  | cons e es ih =>
    rw [callInTurn] at h ⊢
    cases hanswer : (v.answer (e.call made)).run.run s with
    | mk result s' =>
      rw [hanswer] at h
      cases result with
      | ok a =>
        obtain ⟨before, c, s'', hcalls, hlast⟩ := ih h
        exact ⟨e.call made :: before, c, s'', by simp [hcalls], hlast⟩
      | error y =>
        obtain rfl := Except.error.inj h
        exact ⟨[], _, s, rfl, hanswer⟩

theorem Mends.isOk (hw : w.Mends v) (es : List Element) (made : List α) (s : σ) :
    (w.callInTurn es made s).result.isOk := by
  induction es generalizing made s with
  | nil => rfl
  | cons e es ih =>
    obtain ⟨a, s', hanswer⟩ := hw.total (e.call made) s
    rw [callInTurn, hanswer]
    exact ih _ s'

/-- A visitor that does not fail makes the same calls, and goes on where the other one fails. -/
theorem Mends.calls_eq_append (hw : w.Mends v) (es : List Element) (made : List α) (s : σ) :
    ∃ more, (w.callInTurn es made s).calls = (v.callInTurn es made s).calls ++ more ∧
      ((v.callInTurn es made s).result.isOk → more = []) := by
  induction es generalizing made s with
  | nil => exact ⟨[], rfl, fun _ => rfl⟩
  | cons e es ih =>
    rw [callInTurn, callInTurn]
    cases hanswer : (v.answer (e.call made)).run.run s with
    | mk result s' =>
      cases result with
      | ok a =>
        rw [hw.agrees _ _ _ _ hanswer]
        obtain ⟨more, hcalls, hnil⟩ := ih (e.left made ++ [a]) s'
        exact ⟨more, by simp [hcalls], hnil⟩
      | error x =>
        obtain ⟨a, s'', hw'⟩ := hw.total (e.call made) s
        rw [hw']
        exact ⟨_, rfl, fun hok => by cases hok⟩

end Visitor

namespace Tree

open Visitor (Call)

/-! ## The elements of a tree -/

mutual

/-- The elements of a tree find the values that they take, and leave one for the tree. -/
theorem fed_elements {k : Nat} {rest : List Element} (t : Tree) :
    Element.Fed k (t.elements ++ rest) ↔ Element.Fed (k + 1) rest := by
  cases t with
  | token t => simp [elements, Element.Fed, Element.arity]
  | absent => simp [elements, Element.Fed, Element.arity]
  | repeated items =>
    rw [elements, List.append_assoc, fed_elementsOfAll items]
    simp [Element.Fed, Element.arity]
  | node n children =>
    rw [elements, List.append_assoc, fed_elementsOfAll children]
    simp [Element.Fed, Element.arity]

theorem fed_elementsOfAll {k : Nat} {rest : List Element} (ts : List Tree) :
    Element.Fed k (elementsOfAll ts ++ rest) ↔ Element.Fed (k + ts.length) rest := by
  cases ts with
  | nil => simp [elementsOfAll]
  | cons t ts =>
    rw [elementsOfAll, List.append_assoc, fed_elements t, fed_elementsOfAll ts, List.length_cons,
      Nat.add_assoc, Nat.add_comm 1]

end

mutual

/-- The tokens among the elements of a tree are its tokens. -/
theorem filterMap_elements (t : Tree) : t.elements.filterMap Element.token? = t.tokens := by
  cases t with
  | token t => rfl
  | absent => rfl
  | repeated items =>
    rw [elements, List.filterMap_append, filterMap_elementsOfAll items, tokens]
    exact List.append_nil _
  | node n children =>
    rw [elements, List.filterMap_append, filterMap_elementsOfAll children, tokens]
    exact List.append_nil _

theorem filterMap_elementsOfAll (ts : List Tree) :
    (elementsOfAll ts).filterMap Element.token? = tokensOfAll ts := by
  cases ts with
  | nil => rfl
  | cons t ts =>
    rw [elementsOfAll, List.filterMap_append, filterMap_elements t, filterMap_elementsOfAll ts,
      tokensOfAll]

end

end Tree

/-! ## What comes of visiting a tree -/

namespace Visitor

open GrammarText.Tree (Element)

variable {ε σ α : Type} {v w : Visitor (ExceptT ε (StateM σ)) α} {t : Tree} {s : σ}

theorem isOk_walk (v : Visitor (ExceptT ε (StateM σ)) α) (t : Tree) (s : σ) :
    (v.callInTurn t.elements [] s).result.isOk = (v.walk t s).result.isOk := by
  rw [callInTurn_elements, Walk.map]
  cases (v.walk t s).result <;> rfl

theorem calls_callInTurn (v : Visitor (ExceptT ε (StateM σ)) α) (t : Tree) (s : σ) :
    (v.callInTurn t.elements [] s).calls = (v.walk t s).calls := by
  rw [callInTurn_elements, Walk.map]

theorem element_walk (v : Visitor (ExceptT ε (StateM σ)) α) (t : Tree) (s : σ) :
    (v.walk t s).calls.map Call.element <+: t.elements ∧
      ((v.walk t s).result.isOk → (v.walk t s).calls.map Call.element = t.elements) := by
  have hone : Element.Fed 0 (t.elements ++ []) := t.fed_elements.mpr (by simp [Element.Fed])
  have hfed : Element.Fed ([] : List α).length t.elements := by rwa [List.append_nil] at hone
  rw [← calls_callInTurn, ← isOk_walk]
  exact element_callInTurn hfed s

theorem exists_of_walk_error {x : ε} (h : (v.walk t s).result = .error x) :
    ∃ before c state, (v.walk t s).calls = before ++ [c] ∧
      (v.answer c).run.run state = (.error x, (v.walk t s).state) := by
  have herror : (v.callInTurn t.elements [] s).result = .error x := by
    rw [callInTurn_elements, Walk.map, h]
    rfl
  obtain ⟨before, c, state, hcalls, hlast⟩ := exists_of_callInTurn_error herror
  rw [callInTurn_elements] at hcalls hlast
  exact ⟨before, c, state, hcalls, hlast⟩

theorem Mends.walk_eq_append (hw : w.Mends v) (t : Tree) (s : σ) :
    ∃ a more, (w.walk t s).result = .ok a ∧
      (w.walk t s).calls = (v.walk t s).calls ++ more ∧ ((v.walk t s).result.isOk → more = []) := by
  have hok := hw.isOk t.elements [] s
  obtain ⟨more, hcalls, hnil⟩ := hw.calls_eq_append t.elements [] s
  rw [calls_callInTurn, calls_callInTurn] at hcalls
  rw [isOk_walk] at hok hnil
  cases ha : (w.walk t s).result with
  | ok a => exact ⟨a, more, rfl, hcalls, hnil⟩
  | error x =>
    rw [ha] at hok
    cases hok

/-- The tokens that a visitor is called for are those of the tree, in order. -/
theorem tokens_walk (v : Visitor (ExceptT ε (StateM σ)) α) (t : Tree) (s : σ) :
    (v.walk t s).calls.filterMap Call.token? <+: t.tokens ∧
      ((v.walk t s).result.isOk → (v.walk t s).calls.filterMap Call.token? = t.tokens) := by
  have htoken : Element.token? ∘ Call.element = Call.token? (α := α) := by
    funext c
    cases c <;> rfl
  obtain ⟨hstart, hall⟩ := element_walk v t s
  have htokens := hstart.filterMap Element.token?
  rw [List.filterMap_map, htoken, Tree.filterMap_elements] at htokens
  refine ⟨htokens, fun hok => ?_⟩
  rw [← Tree.filterMap_elements, ← hall hok, List.filterMap_map, htoken]

end Visitor

/-! ## The tokens of a tree that was parsed -/

/-- The leaves of what derives tokens are the tokens. -/
theorem Derives.tokensOfAll_eq {g : Description} {close : Nat} {p : Part}
    {taken rest : List Token} {ts : List Tree} (h : Derives g close p taken rest ts) :
    Tree.tokensOfAll ts = taken := by
  induction h with
  | leaf | done | absent | peek | nil => rfl
  | rule hr h ih | later h ih | one h ih | present h ih => exact ih
  | here h ih | star h ih => simpa [Tree.tokensOfAll, Tree.tokens] using ih
  | round h hs ih ihs | cons h hs ih ihs => rw [tokensOfAll_append, ih, ihs]
  | plus h hs ih ihs =>
    simp [Tree.tokensOfAll, Tree.tokens, tokensOfAll_append, ih, ihs]

/-- The tokens of a tree that was parsed are those taken, and others are left only behind the end
of the text. -/
theorem Description.tokens_of_parse {g : Description} {tokens : List Token} {t : Tree}
    (h : g.parse tokens = .ok t) : ∃ rest, atEnd rest = true ∧ tokens = t.tokens ++ rest ∧
      (g.attempt (closeOf tokens) (g.depthBound tokens) g.start tokens).outcome = .hit t rest := by
  rw [parse] at h
  split at h
  · rename_i tree rest ho
    split at h
    · rename_i hend
      obtain rfl := Except.ok.inj h
      obtain ⟨taken, htokens, hd⟩ :=
        ((attempt_traced (g.depthBound tokens) g.start tokens).of_hit ho).derives rfl
      have htaken : tree.tokens = taken := by simpa [Tree.tokensOfAll] using hd.tokensOfAll_eq
      exact ⟨rest, hend, by rw [htokens, htaken], ho⟩
    · cases h
  · cases h
  · cases h

/-- A visitor is called once for each element of a tree in postorder, from left to right, up to the
first call that fails.  The elements of some trees leave the values of these trees, in order, behind
all that were there, so that an element with items or children takes just theirs.  If a call fails,
its error is the result.  A visitor that never fails, and otherwise answers the same, is called in
the same way, and goes on from there.  The tokens that a visitor is called for in a tree that was
parsed are those taken from the front, in order. -/
theorem Tree.visit_postorder {ε σ α : Type} (v : Visitor (ExceptT ε (StateM σ)) α) (t : Tree)
    (s : σ) :
    let walk := v.walk t s
    (t.visit v).run.run s = (walk.result, walk.state) ∧
    v.callInTurn t.elements [] s = walk.map ([·]) ∧
    (∀ ts made state,
      let inTurn := v.callInTurn (elementsOfAll ts) made state
      let visited := (visitAll v ts).run.run state
      inTurn.result = visited.1.map (made ++ ·) ∧ inTurn.state = visited.2) ∧
    walk.calls.map Visitor.Call.element <+: t.elements ∧
    (match walk.result with
      | .ok _ => walk.calls.map Visitor.Call.element = t.elements
      | .error x => ∃ before c state, walk.calls = before ++ [c] ∧
          (v.answer c).run.run state = (.error x, walk.state)) ∧
    (∀ w : Visitor (ExceptT ε (StateM σ)) α, w.Mends v → ∃ a more, (w.walk t s).result = .ok a ∧
      (w.walk t s).calls = walk.calls ++ more ∧ (walk.result.isOk → more = [])) ∧
    ∀ (g : Description) (tokens : List Token), g.parse tokens = .ok t → ∃ rest,
      (g.attempt (closeOf tokens) (g.depthBound tokens) g.start tokens).outcome = .hit t rest ∧
      tokens = t.tokens ++ rest ∧ atEnd rest = true ∧
      walk.calls.filterMap Visitor.Call.token? <+: t.tokens ∧
      (walk.result.isOk → walk.calls.filterMap Visitor.Call.token? = t.tokens) := by
  refine ⟨v.run_visit t s, v.callInTurn_elements t s, v.callInTurn_elementsOfAll,
    (v.element_walk t s).1, ?_, fun w hw => hw.walk_eq_append t s, fun g tokens hparse => ?_⟩
  · cases hresult : (v.walk t s).result with
    | ok a => exact (v.element_walk t s).2 (by rw [hresult]; rfl)
    | error x => exact Visitor.exists_of_walk_error hresult
  · obtain ⟨rest, hend, hsplit, ho⟩ := Description.tokens_of_parse hparse
    exact ⟨rest, ho, hsplit, hend, v.tokens_walk t s⟩

/-- Counting the tokens of a tree is refused at its first block, and goes on from there if it is
not. -/
theorem Tree.visit_postorder_refused :
    let tokens : List Token := [⟨.newline, 0, 1⟩, ⟨.eof, 1, 1⟩]
    let tree : Tree := .node ⟨.grammar, 0, 0, 1⟩
      [.repeated [.node ⟨.block, 0, 0, 1⟩ [.repeated [.token ⟨.newline, 0, 1⟩]],
        .node ⟨.block, 0, 1, 1⟩ [.repeated []]], .token ⟨.eof, 1, 1⟩]
    let error : ParseError := .unexpectedEnd "walker" (.point 0)
    let counting := Visitor.tally fun _ => none
    let refusing := Visitor.tally fun n => if n.rule = .block then some error else none
    counting.Mends refusing ∧ Description.lineBreaks.parse tokens = .ok tree ∧
      (refusing.walk tree []).calls = [.token ⟨.newline, 0, 1⟩, .repeated [1],
        .node ⟨.block, 0, 0, 1⟩ [1]] ∧
      (∃ a more, (counting.walk tree []).result = .ok a ∧
        (counting.walk tree []).calls = (refusing.walk tree []).calls ++ more) ∧
      ∃ rest, tokens = tree.tokens ++ rest ∧ atEnd rest = true ∧
        (refusing.walk tree []).calls.filterMap Visitor.Call.token? <+: tree.tokens := by
  intro tokens tree error counting refusing
  have hnode (n : Node) (counts : List Nat) (visits : List Visit) :
      (refusing.node n counts).run.run visits =
        (if n.rule = .block then .error error else .ok (total counts),
          visits ++ [.node n.rule n.alternative counts]) := by
    by_cases hn : n.rule = .block
    · simp only [refusing, Visitor.tally, if_pos hn]
      rfl
    · simp only [refusing, Visitor.tally, if_neg hn]
      rfl
  have hmends : counting.Mends refusing := by
    refine ⟨fun c s a s' h => ?_, fun c s => ?_⟩
    · cases c with
      | node n counts =>
        replace h : (refusing.node n counts).run.run s = (.ok a, s') := h
        rw [hnode] at h
        split at h
        · cases h
        · exact h
      | token t => exact h
      | absent => exact h
      | repeated counts => exact h
    · cases c <;> exact ⟨_, _, rfl⟩
  have hparse : Description.lineBreaks.parse tokens = .ok tree := rfl
  obtain ⟨-, -, -, -, -, hmended, hparsed⟩ := visit_postorder refusing tree []
  obtain ⟨a, more, hok, hcalls, -⟩ := hmended counting hmends
  obtain ⟨rest, -, hsplit, hend, hcalled, -⟩ := hparsed Description.lineBreaks tokens hparse
  exact ⟨hmends, hparse, rfl, ⟨a, more, hok, hcalls⟩, rest, hsplit, hend, hcalled⟩

end GrammarText
