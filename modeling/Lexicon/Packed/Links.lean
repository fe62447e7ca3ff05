import Lexicon.Packed.Weight

namespace Lexicon.Packed

/-! All links of a buffer. A run that several labels lead to is visited once. -/

def collectLinks (buffer : Buffer) (waiting : List Nat) (visited : Array Bool)
    (links : List Link) : Except DecodeError (List Link) :=
  match waiting with
  | [] => .ok links
  | start :: rest =>
      if visited.getD start false then
        have := weight_rest_lt buffer start rest
        collectLinks buffer rest visited links
      else
        match h : branches buffer start with
        | .error error => .error error
        | .ok found =>
            have := weight_nextStarts_lt h rest
            collectLinks buffer (nextStarts found ++ rest) (visited.setIfInBounds start true)
              ((found.map Branch.link).reverse ++ links)
termination_by weight buffer waiting

/-- The links that the root reaches, ordered by their positions; links at one
position keep the order in which they are found. -/
def links (buffer : Buffer) : Except DecodeError (List Link) :=
  if buffer.isEmpty then
    .error .empty
  else
    (collectLinks buffer [0] (Array.replicate (buffer.size + 1) false) []).map fun found =>
      found.reverse.mergeSort fun left right => left.position ≤ right.position

end Lexicon.Packed
