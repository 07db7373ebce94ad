import InvertedIndex.Binary32.Logarithm

namespace InvertedIndex.Bm25

structure Params where
  k1 : Float32 := 1.2
  b : Float32 := 0.75

def idf (docFreq totalDocs : UInt64) : Float32 :=
  if docFreq = 0 ∨ totalDocs = 0 then 0
  else
    let n := totalDocs.toFloat32
    let df := (min docFreq totalDocs).toFloat32
    Binary32.log (1 + (n - df + 0.5) / (df + 0.5))

structure Weight where
  params : Params
  weight : Float32
  averageLength : Float32

namespace Weight

def ofStatistics (params : Params) (docFreq totalDocs : UInt64) (averageLength boost : Float32) : Weight where
  params := params
  weight := idf docFreq totalDocs * boost
  averageLength := if averageLength > 0 then averageLength else 1

def score (w : Weight) (frequency fieldLength : UInt32) : Float32 :=
  if frequency = 0 then 0
  else
    let tf := frequency.toFloat32
    let norm := 1 - w.params.b + w.params.b * (fieldLength.toFloat32 / w.averageLength)
    w.weight * (tf * (w.params.k1 + 1)) / (tf + w.params.k1 * norm)

end Weight

end InvertedIndex.Bm25
