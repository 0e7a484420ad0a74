namespace Manuscript.Text

structure Span where
  start : UInt64
  stop : UInt64
  deriving DecidableEq, Repr

namespace Span

def length (span : Span) : UInt64 :=
  if span.stop ≤ span.start then 0 else span.stop - span.start

def isEmpty (span : Span) : Bool :=
  span.length == 0

end Span

end Manuscript.Text
