import Motif.Search.Profile
import Motif.Json.Writer

/-!
# Profiles in JSON

A profile is written as an object whose fields come in the order in which the profile states them.
-/

namespace Motif

def Duration.toJson (d : Duration) : List Char :=
  Json.writeObject [("secs", Json.writeNat d.seconds), ("nanos", Json.writeNat d.nanos)]

def Level.toJson (l : Level) : List Char :=
  Json.writeObject
    [("position", Json.writeNat l.position), ("walks", Json.writeNat l.walks),
      ("candidates", Json.writeNat l.candidates), ("map", l.mapTime.toJson),
      ("merge", l.joinTime.toJson), ("materialize", l.extendTime.toJson)]

def Profile.toJson (p : Profile) : List Char :=
  Json.writeObject
    [("threads", Json.writeNat p.workers), ("levels", Json.writeList (p.levels.map Level.toJson)),
      ("total", p.total.toJson)]

end Motif
