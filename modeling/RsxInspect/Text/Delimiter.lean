/-!
# Delimiters

The marks that open and close the constructs of a file.
-/

namespace RsxInspect.Delimiter

/-- The mark that opens and closes front matter. -/
def fence : List Char := ['-', '-', '-']

def scriptTag : List Char := ['<', 's', 'c', 'r', 'i', 'p', 't']

def templateTag : List Char := ['<', 't', 'e', 'm', 'p', 'l', 'a', 't', 'e']

def styleTag : List Char := ['<', 's', 't', 'y', 'l', 'e']

def scriptClose : List Char := ['<', '/', 's', 'c', 'r', 'i', 'p', 't', '>']

def templateClose : List Char := ['<', '/', 't', 'e', 'm', 'p', 'l', 'a', 't', 'e', '>']

def styleClose : List Char := ['<', '/', 's', 't', 'y', 'l', 'e', '>']

def commentOpen : List Char := ['<', '!', '-', '-']

def commentClose : List Char := ['-', '-', '>']

/-- The braces that open an interpolation or a directive. -/
def openBraces : List Char := ['\x7b', '\x7b']

/-- The braces that close an interpolation or a directive. -/
def closeBraces : List Char := ['\x7d', '\x7d']

/-- The end of a start tag without content. -/
def selfClose : List Char := ['/', '>']

/-- The start of an end tag. -/
def endTag : List Char := ['<', '/']

end RsxInspect.Delimiter
