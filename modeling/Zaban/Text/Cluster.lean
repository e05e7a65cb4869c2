import Zaban.Text.Joining

/-!
# Clusters

A **cluster** is a run of characters that a reader sees as one. A text falls
into clusters at every place where two neighbours do not join:

* a control character joins nothing;
* an extender, a spacing mark or a joiner joins whatever stands before it, and
  a preposed mark whatever stands behind it;
* the parts of a Hangul syllable join in their order;
* a picture joins a joiner that stands behind a picture and its extenders;
* flag letters join in pairs, counted from the first of a run.

The last two rules look further back than one character. What they need of it
is the **left context**: how far a picture has got, and whether a flag letter
waits for its partner.

`flatten_clusters` says that the clusters make up the text.
-/

namespace Zaban.Text

/-- How much of "a picture, its extenders, a joiner" stands before a place. -/
inductive PictureState where
  | none
  /-- A picture and its extenders. -/
  | picture
  /-- A picture, its extenders and one joiner. -/
  | joined
deriving DecidableEq

/-- What a place in a text needs to know of the text before it. -/
structure LeftContext where
  /-- The class of the character before the place. -/
  last : Joining
  picture : PictureState
  /-- Does a flag letter before the place wait for its partner? -/
  waiting : Bool
deriving DecidableEq

/-- Is the class one that joins whatever stands before it? -/
def Joining.joinsBack : Joining → Bool
  | .extender | .spacing | .joiner => true
  | _ => false

/-- Do the classes follow one another inside a syllable? -/
def Joining.joinsSyllable : Joining → Joining → Bool
  | .leading, .leading | .leading, .vowel | .leading, .openSyllable | .leading, .closedSyllable
  | .openSyllable, .vowel | .openSyllable, .trailing | .vowel, .vowel | .vowel, .trailing
  | .closedSyllable, .trailing | .trailing, .trailing => true
  | _, _ => false

namespace LeftContext

/-- The context behind a first character of class `k`. -/
def ofFirst (k : Joining) : LeftContext where
  last := k
  picture := if k = .picture then .picture else .none
  waiting := k = .flagLetter

/-- The context behind one more character, of class `k`. -/
def push (l : LeftContext) (k : Joining) : LeftContext where
  last := k
  picture :=
    match k, l.picture with
    | .picture, _ => .picture
    | .extender, .picture => .picture
    | .joiner, .picture => .joined
    | _, _ => .none
  waiting := k = .flagLetter && !l.waiting

/-- Does a character of class `k` join the text before it? -/
def joins (l : LeftContext) (k : Joining) : Bool :=
  l.last != .control && k != .control &&
    (k.joinsBack || l.last == .preposed || l.last.joinsSyllable k
      || (l.picture == .joined && k == .picture) || (l.waiting && k == .flagLetter))

end LeftContext

/-- The rest of the cluster that the text before has begun, and the clusters behind it. -/
def clustersFrom (l : LeftContext) : List Char → List Char × List (List Char)
  | [] => ([], [])
  | c :: cs =>
    let k := joining c
    let (own, others) := clustersFrom (l.push k) cs
    if l.joins k then (c :: own, others) else ([], (c :: own) :: others)

/-- The clusters of a text. -/
def clusters : List Char → List (List Char)
  | [] => []
  | c :: cs =>
    let (own, others) := clustersFrom (.ofFirst (joining c)) cs
    (c :: own) :: others

/-- Behind any context, the clusters make up the text. -/
theorem flatten_clustersFrom (l : LeftContext) (cs : List Char) :
    (clustersFrom l cs).1 ++ (clustersFrom l cs).2.flatten = cs := by
  induction cs generalizing l with
  | nil => rfl
  | cons c cs ih =>
    simp only [clustersFrom]
    split <;> simp [ih]

/-- The clusters make up the text. -/
theorem flatten_clusters (cs : List Char) : (clusters cs).flatten = cs := by
  cases cs with
  | nil => rfl
  | cons c cs => simp [clusters, flatten_clustersFrom]

end Zaban.Text
