/-! The parallel libraries that emitted code can be compiled against. A target only selects the
execution tag of sequence types. -/

namespace DataParallel

inductive Target where
  | cuda
  | omp
  | tbb
  | cpp
deriving DecidableEq, Repr

namespace Target

def all : List Target := [.cuda, .omp, .tbb, .cpp]

def name : Target → String
  | .cuda => "cuda"
  | .omp => "omp"
  | .tbb => "tbb"
  | .cpp => "cpp"

def ofName? (text : String) : Option Target := all.find? (·.name = text)

def tag : Target → String
  | .cuda => "cuda_tag"
  | .omp => "omp_tag"
  | .tbb => "tbb_tag"
  | .cpp => "cpp_tag"

end Target
end DataParallel
