import ClassFile.Hierarchy.Basic

/-!
# Classes of the platform

The classes that compiled code often joins and whose superclass is not the class of all objects: what can be thrown, and the
boxed numbers.
-/

namespace ClassFile.Hierarchy

/-- Classes of the platform with their superclasses. -/
def platformSupers : List (String × String) :=
  [("java/lang/Exception", "java/lang/Throwable"),
   ("java/lang/Error", "java/lang/Throwable"),
   ("java/lang/RuntimeException", "java/lang/Exception"),
   ("java/lang/ReflectiveOperationException", "java/lang/Exception"),
   ("java/lang/ClassNotFoundException", "java/lang/ReflectiveOperationException"),
   ("java/lang/InstantiationException", "java/lang/ReflectiveOperationException"),
   ("java/lang/IllegalAccessException", "java/lang/ReflectiveOperationException"),
   ("java/lang/NoSuchFieldException", "java/lang/ReflectiveOperationException"),
   ("java/lang/NoSuchMethodException", "java/lang/ReflectiveOperationException"),
   ("java/lang/InterruptedException", "java/lang/Exception"),
   ("java/lang/CloneNotSupportedException", "java/lang/Exception"),
   ("java/io/IOException", "java/lang/Exception"),
   ("java/io/UncheckedIOException", "java/lang/RuntimeException"),
   ("java/lang/ArithmeticException", "java/lang/RuntimeException"),
   ("java/lang/ArrayStoreException", "java/lang/RuntimeException"),
   ("java/lang/ClassCastException", "java/lang/RuntimeException"),
   ("java/lang/IllegalArgumentException", "java/lang/RuntimeException"),
   ("java/lang/NumberFormatException", "java/lang/IllegalArgumentException"),
   ("java/lang/IllegalStateException", "java/lang/RuntimeException"),
   ("java/lang/IndexOutOfBoundsException", "java/lang/RuntimeException"),
   ("java/lang/ArrayIndexOutOfBoundsException", "java/lang/IndexOutOfBoundsException"),
   ("java/lang/StringIndexOutOfBoundsException", "java/lang/IndexOutOfBoundsException"),
   ("java/lang/NegativeArraySizeException", "java/lang/RuntimeException"),
   ("java/lang/NullPointerException", "java/lang/RuntimeException"),
   ("java/lang/SecurityException", "java/lang/RuntimeException"),
   ("java/lang/UnsupportedOperationException", "java/lang/RuntimeException"),
   ("java/util/NoSuchElementException", "java/lang/RuntimeException"),
   ("java/util/ConcurrentModificationException", "java/lang/RuntimeException"),
   ("java/lang/LinkageError", "java/lang/Error"),
   ("java/lang/NoClassDefFoundError", "java/lang/LinkageError"),
   ("java/lang/ExceptionInInitializerError", "java/lang/LinkageError"),
   ("java/lang/AssertionError", "java/lang/Error"),
   ("java/lang/VirtualMachineError", "java/lang/Error"),
   ("java/lang/OutOfMemoryError", "java/lang/VirtualMachineError"),
   ("java/lang/StackOverflowError", "java/lang/VirtualMachineError"),
   ("java/lang/Byte", "java/lang/Number"),
   ("java/lang/Short", "java/lang/Number"),
   ("java/lang/Integer", "java/lang/Number"),
   ("java/lang/Long", "java/lang/Number"),
   ("java/lang/Float", "java/lang/Number"),
   ("java/lang/Double", "java/lang/Number")]

/-- The hierarchy of the platform. -/
def platform : Hierarchy :=
  empty.insertAll platformSupers

end ClassFile.Hierarchy
