import Mathlib.Data.List.GetD
import WordSync.Proofs.Field.Record

/-!
# Walks enumerate their rows

A walk over a row that has its place in the word is an iterator over the list of the values that
the row had in the word when the walk began. A `Desk` is a word together with all walks that were
begun on it or copied from one another. Whatever is done at a desk, in whatever order, every walk
answers as its own list alone would have it: the word and the other walks do not matter to it.
-/

namespace WordSync.Field

variable {w : Nat}

namespace Elements

variable {walk walk' : Elements w}

/-- What there is to say of a walk that has gone through the first `p` of some values. -/
structure StandsAt (walk : Elements w) (values : List (BitVec w)) (p : Nat) : Prop where
  /-- So many elements are still to come. -/
  remaining : walk.remaining = values.length - p
  /-- Both bounds are exact. -/
  sizeHint : walk.sizeHint = (values.length - p, some (values.length - p))
  /-- The values that are still to come. -/
  rest : walk.rest = .ok (values.drop p)
  /-- The text shows the values that are still to come. -/
  text : walk.text = .ok (Text.list ((values.drop p).map fun v => toString v.toNat))

/-- A walk stands where the values that are still to come say. -/
theorem standsAt_iff (hfits : walk.row.Fits w) (hw : w < Word.positionLimit)
    {values : List (BitVec w)} {p : Nat} : walk.StandsAt values p ↔ walk.left = values.drop p := by
  have hrest := rest_eq hfits hw
  constructor
  · intro h
    exact Except.ok.inj (hrest.symm.trans h.rest)
  · intro h
    have hremaining : walk.remaining = values.length - p := by
      rw [← length_left, h, List.length_drop]
    constructor
    case remaining => exact hremaining
    case sizeHint => rw [Elements.sizeHint, hremaining]
    case rest => rw [hrest, h]
    case text =>
      rw [Elements.text, hrest, h]
      rfl

/-- What can be asked of a walk. -/
inductive Request where
  /-- The next element, behind which the walk then stands. -/
  | advance
  /-- How many elements are still to come. -/
  | sizeHint
  /-- The text of the walk. -/
  | text
  deriving DecidableEq

/-- What a walk answers. -/
inductive Response (w : Nat) where
  /-- The next element, if there is one. -/
  | element (value : Option (BitVec w))
  /-- Bounds on the number of elements still to come. -/
  | size (bounds : Nat × Option Nat)
  /-- A text. -/
  | text (s : String)
  deriving DecidableEq

/-- Put a request to a walk. -/
def handle (walk : Elements w) : Request → Except Fault (Response w × Elements w)
  | .advance => do
    let (value, walk) ← walk.advance
    return (.element value, walk)
  | .sizeHint => .ok (.size walk.sizeHint, walk)
  | .text => do
    let s ← walk.text
    return (.text s, walk)

/-- What an iterator over a list would answer. -/
def Request.response (values : List (BitVec w)) : Request → Response w
  | .advance => .element values.head?
  | .sizeHint => .size (values.length, some values.length)
  | .text => .text (Text.list (values.map fun v => toString v.toNat))

/-- How many of `requests` take an element out. -/
def taken (requests : List Request) : Nat := requests.count .advance

/-- What an iterator over a list would answer to requests one after the other. -/
def responses (values : List (BitVec w)) : List Request → List (Response w)
  | [] => []
  | request :: rest => request.response values :: responses (values.drop (taken [request])) rest

/-- The requests lead from `walk` to `walk'`, and meanwhile the walk is an iterator over the list
of the values that are still to come. -/
structure Answers (walk walk' : Elements w) (requests : List Request)
    (replies : List (Response w)) : Prop where
  /-- The replies are those of the list. -/
  replies : replies = responses walk.left requests
  /-- The values that are taken out are the first ones. -/
  left : walk'.left = walk.left.drop (taken requests)

/-- Requests to a list, some after some others. -/
theorem responses_append (values : List (BitVec w)) (requests more : List Request) :
    responses values (requests ++ more) =
      responses values requests ++ responses (values.drop (taken requests)) more := by
  induction requests generalizing values with
  | nil => rfl
  | cons request rest ih =>
    simp only [List.cons_append, responses, ih, List.drop_drop, taken, ← List.count_append,
      List.nil_append]

/-- Without a request nothing is answered and the walk stays where it is. -/
theorem Answers.refl (walk : Elements w) : walk.Answers walk [] [] := ⟨rfl, rfl⟩

/-- Requests after requests. -/
theorem Answers.trans {walk'' : Elements w} {requests more : List Request}
    {replies others : List (Response w)} (h : walk.Answers walk' requests replies)
    (h' : walk'.Answers walk'' more others) :
    walk.Answers walk'' (requests ++ more) (replies ++ others) := by
  constructor
  case replies => rw [responses_append, ← h.left, ← h.replies, ← h'.replies]
  case left => rw [h'.left, h.left, List.drop_drop, taken, taken, taken, List.count_append]

/-- A walk answers every request as the list of the values that are still to come. -/
theorem exists_handle (hfits : walk.row.Fits w) (hw : w < Word.positionLimit) (request : Request) :
    ∃ reply walk', walk.handle request = .ok (reply, walk') ∧ walk'.row = walk.row ∧
      walk.Answers walk' [request] [reply] := by
  have hstands : walk.StandsAt walk.left 0 := (standsAt_iff hfits hw).mpr rfl
  cases request with
  | advance =>
    refine ⟨.element walk.left.head?, walk.after 1, ?_, rfl, ?_⟩
    · simp only [handle, advance_eq hfits hw, bind, Except.bind, pure, Except.pure]
    · exact ⟨rfl, left_after walk 1⟩
  | sizeHint =>
    refine ⟨_, walk, rfl, rfl, ?_, rfl⟩
    rw [hstands.sizeHint]
    rfl
  | text =>
    refine ⟨_, walk, ?_, rfl, rfl, rfl⟩
    simp only [handle, hstands.text, bind, Except.bind, pure, Except.pure]
    rfl

end Elements

/-- A word and the walks over it, each known by its number. -/
structure Desk (w : Nat) where
  /-- The word as it is now. -/
  word : BitVec w
  /-- The walks that were begun or copied so far. -/
  walks : List (Elements w)
  deriving DecidableEq

/-- What can be done at a desk. -/
inductive Use (w : Nat) where
  /-- Carry out a command on the word. -/
  | change (command : Command w)
  /-- Begin a walk over the row in the word as it is now. -/
  | start
  /-- Copy a walk where it stands. -/
  | copy (number : Nat)
  /-- Put a request to a walk. -/
  | request (number : Nat) (request : Elements.Request)
  deriving DecidableEq

namespace Desk

variable {r : Row} {desk desk' : Desk w}

/-- Do something at the desk. Only a request has a reply, which comes with the number of the walk.
A walk that does not exist is left out. -/
def use (r : Row) (desk : Desk w) :
    Use w → Except Fault (List (Nat × Elements.Response w) × Desk w)
  | .change command => .ok ([], ⟨command.run.wordAfter desk.word, desk.walks⟩)
  | .start => .ok ([], ⟨desk.word, desk.walks ++ [r.elements desk.word]⟩)
  | .copy number => .ok ([], ⟨desk.word, desk.walks ++ desk.walks[number]?.toList⟩)
  | .request number request =>
    match desk.walks[number]? with
    | none => .ok ([], desk)
    | some walk => do
      let (reply, walk) ← walk.handle request
      return ([(number, reply)], ⟨desk.word, desk.walks.set number walk⟩)

/-- Do several things at the desk, and keep all replies in order. -/
def run (r : Row) (desk : Desk w) :
    List (Use w) → Except Fault (List (Nat × Elements.Response w) × Desk w)
  | [] => .ok ([], desk)
  | use :: rest => do
    let (replies, desk) ← desk.use r use
    let (others, desk) ← desk.run r rest
    return (replies ++ others, desk)

/-- The requests that are put to one walk. -/
def requestsTo (number : Nat) (uses : List (Use w)) : List Elements.Request :=
  uses.filterMap fun
    | .request i request => if i = number then some request else none
    | _ => none

/-- The replies that one walk gives. -/
def repliesOf (number : Nat) (replies : List (Nat × Elements.Response w)) :
    List (Elements.Response w) :=
  replies.filterMap fun reply => if reply.1 = number then some reply.2 else none

/-- All walks of the desk are over rows that have their place in the word, also those that may
still be begun. -/
structure Sound (r : Row) (desk : Desk w) : Prop where
  /-- The row of the walks that may still be begun has its place. -/
  fits : r.Fits w
  /-- The rows of the walks have their place. -/
  walks : ∀ walk ∈ desk.walks, walk.row.Fits w

/-- Requests among some uses and then some more. -/
theorem requestsTo_append (number : Nat) (uses more : List (Use w)) :
    requestsTo number (uses ++ more) = requestsTo number uses ++ requestsTo number more :=
  List.filterMap_append

/-- The uses lead from `desk` to `desk'`, where all walks are still there, and meanwhile each of
them has answered what was put to it, as its own list would have it. -/
def Leads (desk desk' : Desk w) (uses : List (Use w))
    (replies : List (Nat × Elements.Response w)) : Prop :=
  ∀ (number : Nat) (walk : Elements w), desk.walks[number]? = some walk →
    ∃ walk', desk'.walks[number]? = some walk' ∧
      walk.Answers walk' (requestsTo number uses) (repliesOf number replies)

/-- A use that puts no request and only adds walks. -/
theorem Leads.of_append {use : Use w} (hnone : ∀ number, requestsTo number [use] = [])
    {more : List (Elements w)} (hwalks : desk'.walks = desk.walks ++ more) :
    desk.Leads desk' [use] [] := by
  refine fun number walk hwalk => ⟨walk, ?_, ?_⟩
  · obtain ⟨hlt, -⟩ := List.getElem?_eq_some_iff.mp hwalk
    rw [hwalks, List.getElem?_append_left hlt, hwalk]
  · rw [hnone]
    exact .refl walk

/-- A request to a walk is none to another one. -/
theorem requestsTo_of_ne {number other : Nat} (hother : number ≠ other)
    (request : Elements.Request) : requestsTo (w := w) other [.request number request] = [] := by
  simp only [requestsTo, List.filterMap_cons, if_neg hother, List.filterMap_nil]

/-- A request to a walk that does not exist. -/
theorem Leads.of_missing {number : Nat} (hmissing : desk.walks[number]? = none)
    (request : Elements.Request) : desk.Leads desk [.request number request] [] := by
  intro other walk hwalk
  have hother : number ≠ other := by
    rintro rfl
    exact Option.some_ne_none walk (hwalk.symm.trans hmissing)
  refine ⟨walk, hwalk, ?_⟩
  rw [requestsTo_of_ne hother]
  exact .refl walk

/-- A request that a walk has answered. The other walks have not noticed it. -/
theorem Leads.of_answers {number : Nat} {walk walk' : Elements w} {request : Elements.Request}
    {reply : Elements.Response w} (hnumber : desk.walks[number]? = some walk)
    (hanswers : walk.Answers walk' [request] [reply]) :
    desk.Leads ⟨desk.word, desk.walks.set number walk'⟩ [.request number request]
      [(number, reply)] := by
  intro other walk'' hwalk
  by_cases hother : number = other
  · subst hother
    obtain rfl : walk = walk'' := Option.some.inj (hnumber.symm.trans hwalk)
    obtain ⟨hlt, -⟩ := List.getElem?_eq_some_iff.mp hwalk
    refine ⟨walk', List.getElem?_set_self hlt, ?_⟩
    simp only [requestsTo, repliesOf, List.filterMap_cons, if_true, List.filterMap_nil]
    exact hanswers
  · refine ⟨walk'', (List.getElem?_set_ne hother).trans hwalk, ?_⟩
    rw [requestsTo_of_ne hother]
    simp only [repliesOf, List.filterMap_cons, if_neg hother, List.filterMap_nil]
    exact .refl walk''

/-- More walks over rows that have their place leave the desk sound. -/
theorem Sound.append (hsound : desk.Sound r) (word : BitVec w) {more : List (Elements w)}
    (hmore : ∀ walk ∈ more, walk.row.Fits w) : Sound r ⟨word, desk.walks ++ more⟩ :=
  ⟨hsound.fits, List.forall_mem_append.mpr ⟨hsound.walks, hmore⟩⟩

/-- Every use goes through, leaves all walks sound, and is answered as it should be. -/
theorem Sound.exists_use (hsound : desk.Sound r) (hw : w < Word.positionLimit) (use : Use w) :
    ∃ replies desk', desk.use r use = .ok (replies, desk') ∧ desk'.Sound r ∧
      desk.Leads desk' [use] replies := by
  cases use with
  | change command =>
    exact ⟨_, _, rfl, ⟨hsound.fits, hsound.walks⟩,
      .of_append (fun _ => rfl) (List.append_nil _).symm⟩
  | start =>
    have hfresh : ∀ walk ∈ [r.elements desk.word], walk.row.Fits w :=
      List.forall_mem_singleton.mpr hsound.fits
    exact ⟨_, _, rfl, hsound.append desk.word hfresh, .of_append (fun _ => rfl) rfl⟩
  | copy number =>
    have hcopied : ∀ walk ∈ desk.walks[number]?.toList, walk.row.Fits w := fun walk hwalk =>
      hsound.walks walk (List.mem_of_getElem? (Option.mem_toList.mp hwalk))
    exact ⟨_, _, rfl, hsound.append desk.word hcopied, .of_append (fun _ => rfl) rfl⟩
  | request number request =>
    cases hnumber : desk.walks[number]? with
    | none =>
      have huse : desk.use r (.request number request) = .ok ([], desk) := by
        simp only [Desk.use, hnumber]
      exact ⟨[], desk, huse, hsound, .of_missing hnumber request⟩
    | some walk =>
      have hfits := hsound.walks walk (List.mem_of_getElem? hnumber)
      obtain ⟨reply, walk', hhandle, hrow, hanswers⟩ := Elements.exists_handle hfits hw request
      refine ⟨[(number, reply)], ⟨desk.word, desk.walks.set number walk'⟩, ?_,
        ⟨hsound.fits, ?_⟩, .of_answers hnumber hanswers⟩
      · simp only [Desk.use, hnumber, hhandle, bind, Except.bind, pure, Except.pure]
      · intro other hother
        rcases List.mem_or_eq_of_mem_set hother with hold | rfl
        · exact hsound.walks other hold
        · rw [hrow]
          exact hfits

/-- Uses after a use. -/
theorem Leads.trans {desk'' : Desk w} {uses more : List (Use w)}
    {replies others : List (Nat × Elements.Response w)} (h : desk.Leads desk' uses replies)
    (h' : desk'.Leads desk'' more others) :
    desk.Leads desk'' (uses ++ more) (replies ++ others) := by
  intro number walk hwalk
  obtain ⟨walk', hwalk', hanswers⟩ := h number walk hwalk
  obtain ⟨walk'', hwalk'', hanswers'⟩ := h' number walk' hwalk'
  refine ⟨walk'', hwalk'', ?_⟩
  rw [requestsTo_append, repliesOf, List.filterMap_append]
  exact hanswers.trans hanswers'

/-- Any uses one after the other go through, leave all walks sound, and are answered as they should
be. -/
theorem Sound.exists_run (hsound : desk.Sound r) (hw : w < Word.positionLimit)
    (uses : List (Use w)) :
    ∃ replies desk', desk.run r uses = .ok (replies, desk') ∧ desk'.Sound r ∧
      desk.Leads desk' uses replies := by
  induction uses generalizing desk with
  | nil => exact ⟨[], desk, rfl, hsound, fun _ walk hwalk => ⟨walk, hwalk, .refl walk⟩⟩
  | cons use rest ih =>
    obtain ⟨replies, desk', huse, hsound', hleads⟩ := hsound.exists_use hw use
    obtain ⟨others, desk'', hrun, hsound'', hleads'⟩ := ih hsound'
    refine ⟨replies ++ others, desk'', ?_, hsound'', hleads.trans hleads'⟩
    simp only [run, huse, hrun, bind, Except.bind, pure, Except.pure]

/-- The uses go through, and meanwhile walk `number` is an iterator over `values`, from place `p`
on: it answers as the list of the values from there on would, and then stands behind those that
were taken out. -/
def Serves (r : Row) (desk : Desk w) (uses : List (Use w)) (number : Nat)
    (values : List (BitVec w)) (p : Nat) : Prop :=
  ∃ replies desk' walk, desk.run r uses = .ok (replies, desk') ∧
    desk'.walks[number]? = some walk ∧
    repliesOf number replies =
      Elements.responses (values.drop p) (requestsTo number uses) ∧
    walk.StandsAt values (min (p + Elements.taken (requestsTo number uses)) values.length)

/-- Every walk that a sound desk has serves. -/
theorem Sound.serves (hsound : desk.Sound r) (hw : w < Word.positionLimit) {number : Nat}
    {walk : Elements w} (hwalk : desk.walks[number]? = some walk) {values : List (BitVec w)}
    {p : Nat} (hstands : walk.StandsAt values p) (uses : List (Use w)) :
    desk.Serves r uses number values p := by
  obtain ⟨replies, desk', hrun, hsound', hleads⟩ := hsound.exists_run hw uses
  obtain ⟨walk', hwalk', hanswers⟩ := hleads number walk hwalk
  have hwalks := hsound.walks walk (List.mem_of_getElem? hwalk)
  have hwalks' := hsound'.walks walk' (List.mem_of_getElem? hwalk')
  have hleft := (Elements.standsAt_iff hwalks hw).mp hstands
  refine ⟨replies, desk', walk', hrun, hwalk', ?_, ?_⟩
  · rw [hanswers.replies, hleft]
  · rw [Elements.standsAt_iff hwalks' hw, hanswers.left, hleft, List.drop_drop,
      List.drop_eq_drop_iff, Nat.min_assoc, Nat.min_self]

/-- A walk that is added at a sound desk serves. -/
theorem Sound.serves_added (hsound : desk.Sound r) (hw : w < Word.positionLimit) {added : Use w}
    {walk : Elements w}
    (huse : desk.use r added = .ok ([], ⟨desk.word, desk.walks ++ [walk]⟩))
    (hnone : ∀ number, requestsTo number [added] = []) {values : List (BitVec w)} {p : Nat}
    (hstands : walk.StandsAt values p) (uses : List (Use w)) :
    desk.Serves r (added :: uses) desk.walks.length values p := by
  obtain ⟨_, _, huse', hadded, -⟩ := hsound.exists_use hw added
  obtain ⟨-, rfl⟩ := Prod.mk.inj (Except.ok.inj (huse.symm.trans huse'))
  have hwalk : (desk.walks ++ [walk])[desk.walks.length]? = some walk :=
    List.getElem?_concat_length
  obtain ⟨replies, desk', walk', hrun, hwalk', hreplies, hstands'⟩ :=
    hadded.serves hw hwalk hstands uses
  have hrequests : requestsTo desk.walks.length (added :: uses) =
      requestsTo desk.walks.length uses := by
    rw [← List.singleton_append, requestsTo_append, hnone, List.nil_append]
  refine ⟨replies, desk', walk', ?_, hwalk', ?_, ?_⟩
  · simp only [run, huse, hrun, bind, Except.bind, pure, Except.pure, List.nil_append]
  · rw [hrequests, hreplies]
  · rw [hrequests]
    exact hstands'

end Desk

namespace Row

variable {r : Row} {packed : BitVec w} {values other : List (BitVec w)}

/-- The list of what the elements of a row read in a word, in order. -/
structure Lists (r : Row) (packed : BitVec w) (values : List (BitVec w)) : Prop where
  /-- There is a value for each element. -/
  length : values.length = r.count
  /-- Each element reads its value. -/
  get : ∀ i v, values[i]? = some v → r.get i packed = .ok v

/-- There is only one list of what the elements read. -/
theorem Lists.eq (h : r.Lists packed values) (hother : r.Lists packed other) : values = other := by
  refine List.ext_getElem (h.length.trans hother.length.symm) fun i hi hi' => ?_
  have hget := h.get i values[i] (List.getElem?_eq_getElem hi)
  have hget' := hother.get i other[i] (List.getElem?_eq_getElem hi')
  exact Except.ok.inj (hget.symm.trans hget')

/-- A walk that starts at the first element has the values of all elements to come. -/
theorem lists_left (hfits : r.Fits w) (hw : w < Word.positionLimit) (packed : BitVec w) :
    r.Lists packed (r.elements packed).left := by
  have hlength : (r.elements packed).left.length = r.count := Elements.length_left _
  refine ⟨hlength, fun i v hv => ?_⟩
  obtain ⟨hi, rfl⟩ := List.getElem?_eq_some_iff.mp hv
  rw [hlength] at hi
  rw [get_eq hfits hw hi]
  simp only [Elements.left, elements, List.getElem_map, List.getElem_range', Nat.zero_add,
    Nat.one_mul]

/-- Such a walk stands at the beginning of the list. -/
theorem Lists.standsAt (h : r.Lists packed values) (hfits : r.Fits w)
    (hw : w < Word.positionLimit) : (r.elements packed).StandsAt values 0 := by
  have hwalk : (r.elements packed).row.Fits w := hfits
  rw [Elements.standsAt_iff hwalk hw, List.drop_zero]
  exact (lists_left hfits hw packed).eq h

/-- The commands that store the values of a list in the elements, in some order. -/
def storeEach (r : Row) (values : List (BitVec w)) (order : List Nat) : List (Command w) :=
  order.map fun i => .change (.element r i) .set (values.getD i 0#w)

/-- The value that a list has for an element. -/
def given (values : List (BitVec w)) : Target → BitVec w
  | .member _ => 0#w
  | .element _ i => values.getD i 0#w

/-- Storing values that fit in all elements, in whatever order, makes the row read them. -/
theorem exists_runAll_storeEach {k : Width} (haccepted : r.checkLayout k.bits = .ok ())
    {values : List (BitVec k.bits)} (hlength : values.length = r.count)
    (hvalues : ∀ v ∈ values, v.toNat < 2 ^ r.bits) {order : List Nat}
    (horder : order.Perm (List.range r.count)) (word : BitVec k.bits) :
    ∃ packed, runAll (r.storeEach values order) word = .ok () packed ∧ r.Lists packed values := by
  have hmem : ∀ i, i ∈ order ↔ i < r.count := fun i => horder.mem_iff.trans List.mem_range
  have htargets : ∀ i ∈ order, (Target.element r i).Accepted k.bits :=
    fun i hi => ⟨haccepted, (hmem i).mp hi⟩
  have hnodup : order.Nodup := horder.nodup_iff.mpr List.nodup_range
  have hdisjoint : (order.map (Target.element r)).Pairwise fun target other =>
      target.span.Disjoint other.span :=
    List.pairwise_map.mpr (hnodup.imp fun hij => r.element_disjoint hij)
  have hgiven : ∀ i ∈ order, (given values (.element r i)).toNat ≤ 2 ^ r.bits - 1 := by
    intro i hi
    have hlt : i < values.length := hlength.symm ▸ (hmem i).mp hi
    rw [given, List.getD_eq_getElem _ _ hlt]
    exact Nat.le_pred_of_lt (hvalues _ (List.getElem_mem hlt))
  obtain ⟨packed, hrun, hpacked, -⟩ := Target.exists_runAll_stores
    (List.forall_mem_map.mpr htargets) hdisjoint (List.forall_mem_map.mpr hgiven) word
  refine ⟨packed, ?_, hlength, fun i v hv => ?_⟩
  · rw [← hrun, storeEach, Target.stores, List.map_map]
    rfl
  · obtain ⟨hlt, rfl⟩ := List.getElem?_eq_some_iff.mp hv
    have hi := (hmem i).mpr (hlength ▸ hlt)
    have hvalue := List.forall_mem_map.mp hpacked i hi
    rw [given, List.getD_eq_getElem _ _ hlt] at hvalue
    exact (Target.get_eq (htargets i hi) packed).trans (congrArg Except.ok hvalue)

end Row

/-- Walks enumerate their rows. Requests to a fresh walk yield what the elements read, in order, and
then nothing; at every place the bounds are exact, and what is still to come, like the text, is what
comes next in the list. So it stays whatever else is done at a desk: a walk is the list of what the
row read when the walk began, and a copy is that list from where the original stood. Storing the
values of a list in the elements, in whatever order, makes a fresh walk yield that list. -/
theorem Row.elements_exact {r : Row} {k : Width} (haccepted : r.checkLayout k.bits = .ok ()) :
    (∀ packed : BitVec k.bits, ∃ values, r.Lists packed values ∧
        ∀ n, ∃ walk, (r.elements packed).advanceMany n =
            .ok ((List.range n).map fun i => values[i]?, walk) ∧
          walk.StandsAt values (min n r.count)) ∧
      (∀ (word : BitVec k.bits) (before : List (Use k.bits)), ∃ replies desk,
        Desk.run r ⟨word, []⟩ before = .ok (replies, desk) ∧
        (∃ values, r.Lists desk.word values ∧
          ∀ uses, desk.Serves r (.start :: uses) desk.walks.length values 0) ∧
        ∀ number walk values p, desk.walks[number]? = some walk → walk.StandsAt values p →
          ∀ uses, desk.Serves r uses number values p ∧
            desk.Serves r (.copy number :: uses) desk.walks.length values p) ∧
      ∀ (word : BitVec k.bits) (values : List (BitVec k.bits)), values.length = r.count →
        (∀ v ∈ values, v.toNat < 2 ^ r.bits) → ∀ order : List Nat,
          order.Perm (List.range r.count) → ∃ packed,
            runAll (r.storeEach values order) word = .ok () packed ∧
              (r.elements packed).rest = .ok values := by
  have hw := k.bits_lt_positionLimit
  have hfits := (checkLayout_iff_fits hw).mp haccepted
  refine ⟨fun packed => ?_, fun word before => ?_, ?_⟩
  · have hlists := lists_left hfits hw packed
    refine ⟨_, hlists, fun n => ⟨_, Elements.advanceMany_eq hw n _ hfits, ?_⟩⟩
    have hbehind : ((r.elements packed).after n).row.Fits k.bits := hfits
    rw [Elements.standsAt_iff hbehind hw, Elements.left_after, List.drop_eq_drop_iff,
      hlists.length, Nat.min_assoc, Nat.min_self]
  · have hempty : Desk.Sound r ⟨word, []⟩ := ⟨hfits, fun _ h => absurd h List.not_mem_nil⟩
    obtain ⟨replies, desk, hrun, hsound, -⟩ := hempty.exists_run hw before
    have hlists := lists_left hfits hw desk.word
    refine ⟨replies, desk, hrun, ⟨_, hlists, ?_⟩, ?_⟩
    · have hstart : desk.use r .start =
          .ok ([], ⟨desk.word, desk.walks ++ [r.elements desk.word]⟩) := rfl
      exact hsound.serves_added hw hstart (fun _ => rfl) (hlists.standsAt hfits hw)
    · intro number walk values p hwalk hstands uses
      have hcopy : desk.use r (.copy number) = .ok ([], ⟨desk.word, desk.walks ++ [walk]⟩) := by
        rw [Desk.use, hwalk, Option.toList_some]
      exact ⟨hsound.serves hw hwalk hstands uses,
        hsound.serves_added hw hcopy (fun _ => rfl) hstands uses⟩
  · intro word values hlength hvalues order horder
    obtain ⟨packed, hrun, hlists⟩ := exists_runAll_storeEach haccepted hlength hvalues horder word
    exact ⟨packed, hrun, (hlists.standsAt hfits hw).rest⟩

/-- Three values, stored from the last element on, are what a walk yields, with nothing behind them;
a copy of the walk that is made after the first of them yields the other two. -/
theorem Row.elements_exact_byte :
    (Row.mk 1 2 3).checkLayout 8 = .ok () ∧
      runAll ((Row.mk 1 2 3).storeEach [1#8, 2#8, 3#8] [2, 1, 0]) 0xFF#8 = .ok () 0xF3#8 ∧
      ((Row.mk 1 2 3).elements 0xF3#8).rest = .ok [1#8, 2#8, 3#8] ∧
      (∃ walk, ((Row.mk 1 2 3).elements 0xF3#8).advanceMany 4 =
        .ok ([some 1#8, some 2#8, some 3#8, none], walk) ∧ walk.StandsAt [1#8, 2#8, 3#8] 3) ∧
      ∀ uses, Desk.Serves ⟨1, 2, 3⟩ ⟨0xF3#8, [⟨⟨1, 2, 3⟩, 0xF3#8, 1⟩]⟩ (.copy 0 :: uses) 1
        [1#8, 2#8, 3#8] 1 := by
  have haccepted : (Row.mk 1 2 3).checkLayout 8 = .ok () := rfl
  obtain ⟨hwalk, hdesk, hstore⟩ := elements_exact (k := .w8) haccepted
  obtain ⟨packed, hrun, hrest⟩ := hstore 0xFF#8 [1#8, 2#8, 3#8] rfl (by decide) [2, 1, 0]
    (by decide)
  have hpacked : .ok () 0xF3#8 = EStateM.Result.ok () packed := hrun
  obtain rfl : 0xF3#8 = packed := (EStateM.Result.ok.inj hpacked).2
  obtain ⟨values, -, hmany⟩ := hwalk 0xF3#8
  obtain ⟨start, hstart, hstands⟩ := hmany 0
  obtain rfl : (Row.mk 1 2 3).elements 0xF3#8 = start := (Prod.mk.inj (Except.ok.inj hstart)).2
  obtain rfl : values = [1#8, 2#8, 3#8] := Except.ok.inj (hstands.rest.symm.trans hrest)
  obtain ⟨second, hsecond, hstands'⟩ := hmany 1
  obtain rfl : ⟨⟨1, 2, 3⟩, 0xF3#8, 1⟩ = second := (Prod.mk.inj (Except.ok.inj hsecond)).2
  obtain ⟨replies, desk, hbefore, -, hcopy⟩ := hdesk 0xF3#8 [.start, .request 0 .advance]
  have hdesk' : Desk.run ⟨1, 2, 3⟩ ⟨0xF3#8, []⟩ [.start, .request 0 .advance] =
      .ok ([(0, .element (some 1#8))], ⟨0xF3#8, [⟨⟨1, 2, 3⟩, 0xF3#8, 1⟩]⟩) := rfl
  obtain ⟨-, rfl⟩ := Prod.mk.inj (Except.ok.inj (hdesk'.symm.trans hbefore))
  exact ⟨haccepted, hrun, hrest, hmany 4, fun uses => (hcopy 0 _ _ 1 rfl hstands' uses).2⟩

end WordSync.Field
