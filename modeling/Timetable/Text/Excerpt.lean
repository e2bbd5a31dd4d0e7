namespace Timetable.Text.Excerpt

def width : Nat := 80

def lead : Nat := 39

def margin : List Char := List.replicate 5 ' '

def start (column : Nat) : Nat :=
  column - lead

def isLineBreak (c : Char) : Bool :=
  c = '\n' || c = '\r'

def trimEnd (cs : List Char) : List Char :=
  (cs.reverse.dropWhile isLineBreak).reverse

def visible (line : List Char) (column : Nat) : List Char :=
  trimEnd ((line.drop (start column)).take width)

def arrow (column : Nat) : List Char :=
  List.replicate (column - start column) ' ' ++ ['^']

def render (line : List Char) (column : Nat) : List Char :=
  margin ++ visible line column ++ ['\n'] ++ margin ++ arrow column

end Timetable.Text.Excerpt
