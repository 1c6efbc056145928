import DocTree.Call.Run

namespace DocTree

inductive Fault where
  -- The request does not reach the store.
  | refuse
  -- The request is forgotten.
  | drop
  -- The request is carried out and its answer lost.
  | lose
  -- The request is answered with a status and not carried out.
  | status (outcome : Status)
  -- Another client rewrites the document with its own value first.
  | touch
  -- Another client stores a value under the key first.
  | race (value : Bytes)
  -- Another client removes the document first.
  | vanish
  deriving DecidableEq

-- Which requests go wrong, and how.
structure FaultRule where
  fault : Fault
  collection : Option Collection := none
  kind : Option String := none
  key : Option String := none
  -- How many matching requests pass first.
  skip : Nat := 0
  -- How many requests go wrong after that; without a number, all of them.
  times : Option Nat := none
  deriving DecidableEq

structure FaultyStore where
  image : Image
  rules : List FaultRule

namespace FaultRule

def reason : String := "transport down"

def Matches (rule : FaultRule) (collection : Collection) (request : Request) : Bool :=
  rule.collection.all (· = collection) && rule.kind.all (· = request.kind) &&
    rule.key.all (· = request.key)

-- The fault that a request meets, and the rules after it. The first rule that matches, has skipped
-- enough and has not worn off decides.
def select (collection : Collection) (request : Request) :
    List FaultRule → Option Fault × List FaultRule
  | [] => (none, [])
  | rule :: rules =>
    if rule.Matches collection request then
      if rule.skip > 0 then
        let (fault, rules) := select collection request rules
        (fault, { rule with skip := rule.skip - 1 } :: rules)
      else if rule.times = some 0 then
        let (fault, rules) := select collection request rules
        (fault, rule :: rules)
      else
        (some rule.fault, { rule with times := rule.times.map (· - 1) } :: rules)
    else
      let (fault, rules) := select collection request rules
      (fault, rule :: rules)

end FaultRule

namespace Fault

def interfere (fault : Fault) (maxSize : Nat) (scope : String) (collection : Collection)
    (key : String) (image : Image) : Image :=
  match fault with
  | touch =>
    match image.document? scope collection key with
    | some document => (image.apply maxSize scope collection (.replace key document.value none)).1
    | none => image
  | race value =>
    let (inserted, response) := image.apply maxSize scope collection (.insert key value)
    if response.status = .exists then
      (image.apply maxSize scope collection (.replace key value none)).1
    else
      inserted
  | vanish => (image.apply maxSize scope collection (.remove key)).1
  | _ => image

def answer (fault : Fault) (maxSize : Nat) (scope : String) (collection : Collection)
    (request : Request) (image : Image) : Reply × Image :=
  match fault with
  | refuse => (.refused FaultRule.reason, image)
  | drop => (.dropped, image)
  | lose => (.dropped, (image.apply maxSize scope collection request).1)
  | .status outcome => (.answered { status := outcome }, image)
  | touch | race _ | vanish =>
    let image := fault.interfere maxSize scope collection request.key image
    Image.backend maxSize scope collection request image

end Fault

def FaultyStore.backend (maxSize : Nat) (scope : String) : Backend FaultyStore :=
  fun collection request store =>
    let (fault, rules) := FaultRule.select collection request store.rules
    match fault with
    | none =>
      let (reply, image) := Image.backend maxSize scope collection request store.image
      (reply, ⟨image, rules⟩)
    | some fault =>
      let (reply, image) := fault.answer maxSize scope collection request store.image
      (reply, ⟨image, rules⟩)

end DocTree
